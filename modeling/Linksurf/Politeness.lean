import Linksurf.Admission

/-!
# The politeness delay

Beside one worker, an observer keeps the release time the last report of each
domain computed, and for every fetch the moment it started and the release time
then due. The back queue honours it as long as its own entry is not recreated
before that time, and no report is made while another payload of the domain has
already been handed out.
-/
namespace Linksurf

open Monitor Execution

/-- A fetch: its domain, when it started, and the release time due then. -/
structure FetchStart where
  domain : String
  start : Time
  due : Option Time
  deriving DecidableEq

structure Observed where
  node : Node
  due : String → Option Time
  fetches : List FetchStart

def Observed.initial : Observed := ⟨.initial, fun _ => none, []⟩

/-- What a report adds to the observed release times. -/
def Observed.dueAfter (s : Observed) : Pc → String → Option Time
  | .reporting p _ fetched => Function.update s.due p.url.domain (some (s.node.now + fetched.delaySeconds))
  | _ => s.due

def Observed.fetchesAfter (s : Observed) : Pc → List FetchStart
  | .domainLock p _ => s.fetches ++ [⟨p.url.domain, s.node.now, s.due p.url.domain⟩]
  | _ => s.fetches

def Observed.step (lib : Externals) (s : Observed) : Action → Option Observed
  | .run task reply => do
    let pc ← s.node.tasks.pcs[task]?
    let node ← s.node.step lib (.run task reply)
    return ⟨node, s.dueAfter pc, s.fetchesAfter pc⟩
  | action => do
    let node ← s.node.step lib action
    return { s with node }

/-- Every fetch started no earlier than the release time due. -/
def Observed.Polite (s : Observed) : Prop := ∀ f ∈ s.fetches, ∀ due, f.due = some due → due ≤ f.start

/-- No report is made while another payload of its domain has been handed out and
not fetched, and no release time is created before the one last reported. -/
def Spaced (s : Observed) : Action → Prop
  | .run task reply => ∀ pc, s.node.tasks.pcs[task]? = some pc →
    (∀ p l fetched, pc = .reporting p l fetched → reply = .done →
      ∀ pc' ∈ s.node.tasks.pcs, ∀ p', pc'.unfetched? = some p' → p'.url.domain ≠ p.url.domain) ∧
    (∀ caller domain urls, pc = .domainReleaseTime caller domain urls →
      ∀ due, s.due domain = some due → due ≤ s.node.now)
  | _ => True

/-- Release times cover what was reported, and whoever was handed a payload may
fetch it. -/
structure Spacing (s : Observed) : Prop where
  entries : ∀ d due, s.due d = some due → ∀ r, s.node.queue.releaseTimes.get? d = some r →
    due ≤ r ∨ due ≤ s.node.now
  handed : ∀ pc ∈ s.node.tasks.pcs, ∀ p, pc.unfetched? = some p →
    ∀ due, s.due p.url.domain = some due → due ≤ s.node.now
  polite : s.Polite

section

variable {lib : Externals} {locked : LockId → Bool} {now : Time} {q : BackQueue} {pc : Pc}
  {reply : Reply} {a : Advance} {n' : Node} {s s' : Observed}

/-- How a step changes a domain's release time. -/
theorem effect_releaseTimes (h : Effect lib locked now q pc reply a) {d : String} {r : Time}
    (ha : a.queue.releaseTimes.get? d = some r) : q.releaseTimes.get? d = some r ∨
      (∃ caller urls, pc = .domainReleaseTime caller d urls) ∨
      (∃ payload rest lock, q.scan now locked = .found d payload rest lock) ∨
      (∃ p l fetched, pc = .reporting p l fetched ∧ p.url.domain = d ∧ r = now + fetched.delaySeconds) := by
  cases h with
  | put =>
    left
    unfold BackQueue.put at ha
    dsimp only at ha
    split at ha <;> exact ha
  | @lookedUp caller domain urls _ time _ =>
    by_cases hd : d = domain
    · subst hd
      exact .inr (.inl ⟨caller, urls, rfl⟩)
    · exact .inl ((Dicts.Dict.get?_set_other _ hd _).symm.trans ha)
  | @take domain payload rest lock hscan =>
    by_cases hd : d = domain
    · subst hd
      exact .inr (.inr (.inl ⟨payload, rest, lock, hscan⟩))
    · exact .inl ((Dicts.Dict.get?_set_other _ hd _).symm.trans ha)
  | @report p l fetched =>
    by_cases hd : d = p.url.domain
    · subst hd
      have hr := (Dicts.Dict.get?_set_same _ _ _).symm.trans ha
      exact .inr (.inr (.inr ⟨p, l, fetched, rfl, rfl, (Option.some.inj hr).symm⟩))
    · exact .inl ((Dicts.Dict.get?_set_other _ hd _).symm.trans ha)
  | @removeDomain domain _ =>
    left
    by_cases hd : d = domain
    · subst hd
      simp [BackQueue.removeDomain] at ha
    · exact (Dicts.Dict.get?_erase_other _ hd).symm.trans ha
  | _ => exact .inl ha

/-- A payload handed out was handed out before, or its domain's release time had
come. -/
theorem effect_handed (hk : q.Keyed) (h : Effect lib locked now q pc reply a) {p : Payload}
    (ha : a.pc.unfetched? = some p) : pc.unfetched? = some p ∨
      ∃ r, q.releaseTimes.get? p.url.domain = some r ∧ r ≤ now := by
  cases h with
  | @idle _ _ pc' _ h' => cases pc' <;> simp_all [Pc.idle, Pc.unfetched?]
  | @leave _ _ pc' _ h' => cases pc' <;> simp_all [Pc.idle, Pc.unfetched?]
  | put _ hpc => subst hpc; dsimp only at ha; split at ha <;> cases ha
  | take hscan =>
    obtain rfl := Option.some.inj ha
    obtain ⟨hin, ⟨r, hr, hle⟩, -⟩ := scan_found hscan
    exact .inr ⟨r, (hk _ hin _ List.mem_cons_self) ▸ hr, hle⟩
  | stored | queued => exact .inl ha
  | _ => cases ha

/-- The release time of a domain was just reported, or is the one observed before. -/
theorem dueAfter_cases (s : Observed) (pc : Pc) (d : String) :
    (∃ p l fetched, pc = .reporting p l fetched ∧ p.url.domain = d ∧
      s.dueAfter pc d = some (s.node.now + fetched.delaySeconds)) ∨ s.dueAfter pc d = s.due d := by
  cases pc with
  | reporting p l fetched =>
    by_cases hd : d = p.url.domain
    · subst hd
      exact .inl ⟨p, l, fetched, rfl, rfl, Function.update_self _ _ _⟩
    · exact .inr (Function.update_of_ne hd _ _)
  | _ => exact .inr rfl

theorem effect_report {p : Payload} {l : LockId} {fetched : Fetched}
    (h : Effect lib locked now q (.reporting p l fetched) reply a) : reply = .done ∧
      a.pc.unfetched? = none ∧ a.queue.releaseTimes.get? p.url.domain = some (now + fetched.delaySeconds) := by
  cases h with
  | idle h _ => cases h
  | leave h _ => cases h
  | enter _ h _ _ => cases h
  | report => exact ⟨rfl, rfl, Dicts.Dict.get?_set_same _ _ _⟩

theorem Spacing.ran (h : Spacing s) (hk : s.node.queue.Keyed) {task : TaskId}
    (hran : Ran lib s.node task reply pc a n') (hspaced : Spaced s (.run task reply)) :
    Spacing ⟨n', s.dueAfter pc, s.fetchesAfter pc⟩ := by
  have hmem := List.mem_of_getElem? hran.at_pc
  obtain ⟨halone, hcreate⟩ := hspaced pc hran.at_pc
  have hnow : n'.now = s.node.now := hran.now
  constructor
  · intro d due hdue r hr
    change n'.queue.releaseTimes.get? d = some r at hr
    change due ≤ r ∨ due ≤ n'.now
    rw [hran.queue] at hr
    rw [hnow]
    rcases dueAfter_cases s pc d with ⟨p, l, fetched, rfl, rfl, hnew⟩ | hsame
    · obtain ⟨-, -, hset⟩ := effect_report hran.effect
      left
      have he : due = r := Option.some.inj (hdue.symm.trans (hnew.trans (hset.symm.trans hr)))
      exact le_of_eq he
    · have hdue' : s.due d = some due := hsame.symm.trans hdue
      rcases effect_releaseTimes hran.effect hr with hold | ⟨caller, urls, hpc⟩ | ⟨p, rest, lock, hscan⟩ |
          ⟨p, l, fetched, rfl, rfl, rfl⟩
      · exact h.entries d due hdue' r hold
      · exact .inr (hcreate caller d urls hpc due hdue')
      · obtain ⟨-, ⟨r₀, hr₀, hle⟩, -⟩ := scan_found hscan
        exact .inr ((h.entries d due hdue' r₀ hr₀).elim (fun hd => hd.trans hle) id)
      · left
        have hnew : s.dueAfter (.reporting p l fetched) p.url.domain = some (s.node.now + fetched.delaySeconds) :=
          Function.update_self _ _ _
        exact le_of_eq (Option.some.inj (hdue.symm.trans hnew))
  · intro pc' hpc' p hp due hdue
    change pc' ∈ n'.tasks.pcs at hpc'
    change due ≤ n'.now
    rw [hnow]
    have hback : (pc' = a.pc ∧ a.pc.unfetched? = some p) ∨ pc' ∈ s.node.tasks.pcs := by
      obtain he | hpc' | ⟨d, rfl⟩ := hran.mem_pcs hpc'
      · exact .inl ⟨he, he ▸ hp⟩
      · exact .inr hpc'
      · cases hp
    rcases dueAfter_cases s pc p.url.domain with ⟨p₀, l, fetched, rfl, hd, -⟩ | hsame
    · obtain ⟨hdone, hnone, -⟩ := effect_report hran.effect
      rcases hback with ⟨-, hp'⟩ | hold
      · rw [hnone] at hp'
        cases hp'
      · exact absurd hd.symm (halone p₀ l fetched rfl hdone pc' hold p hp)
    · have hdue' : s.due p.url.domain = some due := hsame.symm.trans hdue
      rcases hback with ⟨rfl, hp'⟩ | hold
      · rcases effect_handed hk hran.effect hp' with hold | ⟨r, hr, hle⟩
        · exact h.handed pc hmem p hold due hdue'
        · exact (h.entries _ due hdue' r hr).elim (fun hd => hd.trans hle) id
      · exact h.handed pc' hold p hp due hdue'
  · intro f hf due hdue
    change f ∈ s.fetchesAfter pc at hf
    unfold Observed.fetchesAfter at hf
    split at hf
    · rename_i p l
      rcases List.mem_append.mp hf with hf | hf
      · exact h.polite f hf due hdue
      · rw [List.mem_singleton.mp hf] at hdue ⊢
        exact h.handed _ hmem p rfl due hdue
    · exact h.polite f hf due hdue

theorem Spacing.outside (h : Spacing s) (new : List Pc) (hnew : ∀ p ∈ new, p.unfetched? = none)
    (htimes : n'.queue.releaseTimes = s.node.queue.releaseTimes)
    (hpcs : n'.tasks.pcs = s.node.tasks.pcs ++ new) (hnow : s.node.now ≤ n'.now) :
    Spacing { s with node := n' } where
  entries d due hdue r hr := by
    change n'.queue.releaseTimes.get? d = some r at hr
    rw [htimes] at hr
    exact (h.entries d due hdue r hr).imp_right (fun hle => hle.trans hnow)
  handed pc hpc p hp due hdue := by
    change pc ∈ n'.tasks.pcs at hpc
    rw [hpcs] at hpc
    rcases List.mem_append.mp hpc with hpc | hpc
    · exact (h.handed pc hpc p hp due hdue).trans hnow
    · rw [hnew pc hpc] at hp
      cases hp
  polite := h.polite

end

/-- Any step that is not a task's leaves release times and handed payloads alone. -/
theorem Spacing.step {lib : Externals} {s s' : Observed} {action : Action} (h : Spacing s)
    (hs : s.node.Sound lib) (hspaced : Spaced s action) (hstep : s.step lib action = some s') :
    s'.node.Sound lib ∧ Spacing s' := by
  cases action with
  | run task reply =>
    obtain ⟨pc, hpc, hstep⟩ := Option.bind_eq_some_iff.mp hstep
    obtain ⟨n', hn', hstep⟩ := Option.bind_eq_some_iff.mp hstep
    cases hstep
    obtain ⟨pc', a, hran⟩ := runTask_ran hn'
    obtain rfl := Option.some.inj (hpc.symm.trans hran.at_pc)
    exact ⟨hs.step (.ran hran), h.ran hs.keyed hran hspaced⟩
  | tick now =>
    obtain ⟨n', hn', hstep⟩ := Option.bind_eq_some_iff.mp hstep
    cases hstep
    refine ⟨hs.step (step_stepped hn'), ?_⟩
    simp only [Node.step] at hn'
    split at hn'
    · rename_i hle
      cases hn'
      exact h.outside [] (by simp) rfl (List.append_nil _).symm hle
    · cases hn'
  | waitForDrain timeout =>
    obtain ⟨n', hn', hstep⟩ := Option.bind_eq_some_iff.mp hstep
    cases hstep
    refine ⟨hs.step (step_stepped hn'), ?_⟩
    simp only [Node.step] at hn'
    split at hn' <;> cases hn'
    exact h.outside [.waitForDrain _] (by simp [Pc.unfetched?]) rfl rfl (le_refl _)
  | loop =>
    cases hstep
    exact ⟨hs.step (.looped rfl), h.outside [.next] (by simp [Pc.unfetched?]) rfl rfl (le_refl _)⟩
  | grant lock =>
    cases hstep
    exact ⟨hs.step (.granted lock rfl), h.outside [] (by simp) rfl (List.append_nil _).symm (le_refl _)⟩
  | drain =>
    cases hstep
    exact ⟨hs.step (@step_stepped lib _ _ .drain rfl),
      h.outside [] (by simp) rfl (List.append_nil _).symm (le_refl _)⟩
  | setBuckets assignments =>
    cases hstep
    exact ⟨hs.step (@step_stepped lib _ _ (.setBuckets assignments) rfl),
      h.outside [] (by simp) rfl (List.append_nil _).symm (le_refl _)⟩
  | setReady ready =>
    cases hstep
    exact ⟨hs.step (@step_stepped lib _ _ (.setReady ready) rfl),
      h.outside [] (by simp) rfl (List.append_nil _).symm (le_refl _)⟩

theorem initial_spacing : Spacing .initial where
  entries := by intro d due h; cases h
  handed := by intro pc hpc; cases hpc
  polite := by intro f hf; cases hf

/-- In a run in which no report is made while another payload of its domain is
out and unfetched, and no release time is created before the one last reported,
every fetch starts at or after the release time due. -/
theorem fetches_polite (lib : Externals) (s : Observed)
    (h : Reaches (Observed.step lib) Spaced .initial s) : s.Polite :=
  (h.invariant (fun s => s.node.Sound lib ∧ Spacing s) ⟨Node.initial_sound, initial_spacing⟩
    (fun _ _ _ hs hspaced hstep => hs.2.step hs.1 hspaced hstep)).2.polite

/-- A test that implies `Spaced`: a report is made with nothing else to fetch,
and release times are created for domains never reported. -/
def reportsAlone (s : Observed) : Action → Bool
  | .run task _ =>
    match s.node.tasks.pcs[task]? with
    | some (.reporting _ _ _) => s.node.tasks.pcs.all (fun pc => pc.unfetched?.isNone)
    | some (.domainReleaseTime _ domain _) => (s.due domain).isNone
    | _ => true
  | _ => true

theorem spaced_of_reportsAlone (s : Observed) (action : Action) (h : reportsAlone s action = true) :
    Spaced s action := by
  cases action with
  | run task reply =>
    intro pc hpc
    simp only [reportsAlone, hpc] at h
    constructor
    · rintro p l fetched rfl - pc' hpc' p' hp'
      have hnone := List.all_eq_true.mp h pc' hpc'
      simp [hp'] at hnone
    · rintro caller domain urls rfl due hdue
      simp [hdue] at h
  | _ => trivial

/-- A page is fetched and reported, and the next one a second after. -/
theorem fetches_polite_site : ∃ s, Reaches (Observed.step site) Spaced .initial s ∧
    s.fetches = [⟨"site", 0, none⟩, ⟨"site", 1, some 1⟩] ∧ s.Polite := by
  obtain ⟨s, hs, hfetches⟩ := exists_reaches (Observed.step site) .initial reportsAlone
    spaced_of_reportsAlone
    [.setBuckets [⟨1, .idle, some "a", none, 0⟩], .loop, .run 0 .done, .run 0 .done,
      .run 0 (.domains []), .run 0 (.urls [page1, page2]), .run 0 (.urls [page1, page2]), .run 0 .done,
      .run 0 (.releaseTime none), .run 0 .done, .run 0 .done, .drain, .run 0 .done, .run 0 .done,
      .run 0 .done, .run 0 .done, .run 0 .done, .run 0 (.fetched .empty), .run 0 .done, .run 0 .done,
      .tick 1, .run 0 .done, .run 0 .done, .run 0 .done, .run 0 .done, .run 0 .done]
    (fun s => s.fetches = [⟨"site", 0, none⟩, ⟨"site", 1, some 1⟩]) (by decide +kernel)
  exact ⟨s, hs, by simpa using hfetches, fetches_polite site s hs⟩

/-- Page 1 is fetched and reported, which empties the site's queue; the cleanup
forgets its release time, page 2 is enqueued with a new one and fetched at once. -/
theorem fetch_before_release_time :
    ¬ ∀ s, Reaches (Observed.step site) Free .initial s → s.Polite := by
  intro hall
  obtain ⟨s, hs, hearly⟩ := exists_reaches_free (Observed.step site) .initial
    [.setBuckets [⟨1, .idle, some "a", none, 0⟩], .loop, .run 0 .done, .run 0 .done,
      .run 0 (.domains []), .run 0 (.urls [page1]), .run 0 (.urls [page1]), .run 0 .done,
      .run 0 (.releaseTime none), .run 0 .done, .run 0 .done, .run 0 .done, .run 0 (.domains []),
      .run 0 (.urls []), .run 0 .done, .run 0 .done, .run 0 .done, .run 0 .done, .run 0 .done,
      .run 0 (.fetched .empty), .run 0 .done, .run 0 .done,
      -- the cleanup task removes the site and enqueues it again
      .run 1 .done, .run 1 .done, .run 1 .done, .run 1 .done, .run 1 .done, .run 1 (.domains []),
      .run 1 (.urls [page2]), .run 1 (.urls [page2]), .run 1 .done, .run 1 (.releaseTime none), .run 1 .done,
      .run 0 .done, .run 0 .done, .run 0 (.domains []), .run 0 (.urls []), .run 0 .done, .run 0 .done,
      .run 0 .done, .run 0 .done, .run 0 .done]
    (fun s => ⟨"site", 0, some 1⟩ ∈ s.fetches) (by decide +kernel)
  have hle := hall s hs ⟨"site", 0, some 1⟩ (by simpa using hearly) 1 rfl
  exact absurd hle (by decide +kernel)

end Linksurf
