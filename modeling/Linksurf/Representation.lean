import Linksurf.Exclusion
import Linksurf.Store

/-!
# The representation of the back queue

What the three dictionaries of the back queue say together. Beside one worker
are kept the list `get_domain_urls` last returned for each domain, and for each
task the domains its current refill loop enqueued and those removed since that
loop began. A task inside the general lock knows more than the dictionaries say;
nobody else touches the queues and the locks meanwhile.
-/
namespace Linksurf

open Monitor Execution

/-! ## The traced worker -/

structure Traced where
  node : Node
  /-- The domain `get_domain_urls` was last asked for. -/
  listing : String
  returned : String → List UrlModel
  /-- Enqueues that succeeded in the task's refill loop, the one it is in or was
  in last. -/
  refills : TaskId → Nat
  /-- Domains removed since that loop began. -/
  removed : TaskId → Nat

def Traced.initial : Traced := ⟨.initial, "", fun _ => [], fun _ => 0, fun _ => 0⟩

/-- The step takes the task to the head of a refill loop it was not in. -/
def Pc.begins (pc pc' : Pc) : Prop := pc' = .next ∧ pc ≠ .putting .next []

instance (pc pc' : Pc) : Decidable (pc.begins pc') := inferInstanceAs (Decidable (pc' = .next ∧ pc ≠ .putting .next []))

/-- `refills` of the task after a step. -/
def Pc.refilled (pc pc' : Pc) (refills : Nat) : Nat :=
  if pc = .putting .next [] then refills + 1
  else if pc.begins pc' then 0
  else refills

/-- The domain a step at this point removes, if it is queued. -/
def Pc.removing? : Pc → Option String
  | .cleanupGeneral domain _ => some domain
  | _ => none

/-- The number of domains a step at this point removes. -/
def BackQueue.removals (q : BackQueue) (pc : Pc) : Nat :=
  if pc.removing?.any (q.queues.keys.contains ·) then 1 else 0

/-- The list a step gets from `get_domain_urls`. -/
def Pc.lists? : Pc → Reply → Option (String × List UrlModel)
  | .domainUrls _ domain, .urls snapshot => some (domain, getDomainUrls snapshot domain MAX_URLS_PER_DOMAIN)
  | _, _ => none

/-- The trace after a task went from one point to the next. -/
def Traced.after (s : Traced) (task : TaskId) (pc : Pc) (reply : Reply) (pc' : Pc) (node : Node) : Traced where
  node
  listing := (pc.lists? reply).elim s.listing Prod.fst
  returned := (pc.lists? reply).elim s.returned (fun l => Function.update s.returned l.1 l.2)
  refills := Function.update s.refills task (pc.refilled pc' (s.refills task))
  removed u := if u = task ∧ pc.begins pc' then 0 else s.removed u + s.node.queue.removals pc

/-- A step of the worker and what the trace makes of it. -/
def Traced.step (lib : Externals) (s : Traced) (action : Action) : Option Traced :=
  (s.node.step lib action).map (fun node =>
    match action with
    | .run task reply =>
      match s.node.tasks.pcs[task]?, node.tasks.pcs[task]? with
      | some pc, some pc' => s.after task pc reply pc' node
      | _, _ => { s with node }
    | .loop =>
      { s with
        node
        refills := Function.update s.refills s.node.tasks.pcs.length 0
        removed := Function.update s.removed s.node.tasks.pcs.length 0 }
    | _ => { s with node })

/-- The payloads `_enqueue_new_domain` makes of a list of documents. -/
def payloads (lib : Externals) (urls : List UrlModel) : List Payload :=
  urls.filterMap (fun u => (lib.url u.address).map (fun url => ⟨url, u.priority⟩))

/-- Every document the database answers with parses back to its domain. -/
def StoredReparse (lib : Externals) (_ : Traced) (action : Action) : Prop :=
  ∀ (task : TaskId) (snapshot : List UrlModel), action = .run task (.urls snapshot) → ∀ u ∈ snapshot, u.Reparses lib

/-! ## What a task inside the general lock knows -/

/-- What was listed is what is queued for the domain and what is still to be put. -/
structure Enlisted (lib : Externals) (q : BackQueue) (domain : String) (returned urls : List UrlModel) : Prop where
  nonempty : payloads lib returned ≠ []
  stored : ∀ u ∈ urls, u.Reparses lib ∧ u.domain = domain
  split : (q.queues.get? domain).getD [] ++ payloads lib urls = payloads lib returned
  room : domain ∈ q.queues.keys ∨ q.queues.size < MAX_ACTIVE_DOMAINS

def Pc.Knows (lib : Externals) (q : BackQueue) (listing : String) (returned : List UrlModel) : Pc → Prop
  | .excludedDomains _ current =>
    q.queues.size < MAX_ACTIVE_DOMAINS ∧ ∀ d ∈ q.queues.keys, d ∈ current
  | .distinctDomains _ excluded _ =>
    q.queues.size < MAX_ACTIVE_DOMAINS ∧ ∀ d ∈ q.queues.keys, d ∈ excluded
  | .domainUrls _ domain => q.queues.size < MAX_ACTIVE_DOMAINS ∧ domain ∉ q.queues.keys
  | .putting _ urls => Enlisted lib q listing returned urls
  | .domainReleaseTime _ domain urls =>
    domain = listing ∧ domain ∈ q.queues.keys ∧ Enlisted lib q listing returned urls
  | _ => True

/-- The task's refill loop has queued a domain that is not counted yet. -/
def Pc.refilling (q : BackQueue) (listing : String) : Pc → Bool
  | .putting .next _ | .domainReleaseTime .next _ _ => q.queues.keys.contains listing
  | _ => false

/-- The invariant of the dictionaries, of the tasks inside the general lock, and
of the trace. -/
structure Traced.Represented (lib : Externals) (s : Traced) : Prop where
  locks : ∀ d, d ∈ s.node.queue.queues.keys ↔ d ∈ s.node.queue.locks.keys
  dated : ∀ d ∈ s.node.queue.queues.keys, d ∈ s.node.queue.releaseTimes.keys ∨
    ∃ pc ∈ s.node.tasks.pcs, ∃ caller urls, pc = .domainReleaseTime caller d urls
  bounded : s.node.queue.queues.size ≤ MAX_ACTIVE_DOMAINS
  knows : ∀ pc ∈ s.node.tasks.pcs, pc.Knows lib s.node.queue s.listing (s.returned s.listing)
  queued : ∀ d ps, s.node.queue.queues.get? d = some ps → ps <:+: payloads lib (s.returned d)
  snapshots : ∀ d, ∃ snapshot, s.returned d = getDomainUrls snapshot d MAX_URLS_PER_DOMAIN
  counted : ∀ t, s.refills t +
      (if (s.node.tasks.pcs[t]?).any (Pc.refilling s.node.queue s.listing) then 1 else 0) ≤
    s.node.queue.queues.size + s.removed t

section

variable {lib : Externals} {locked : LockId → Bool} {now : Time} {q q' : BackQueue} {pc pc' : Pc}
  {reply : Reply} {a : Advance} {n n' : Node} {s s' : Traced} {listing domain : String}
  {returned urls : List UrlModel}

@[simp] theorem payloads_cons_of_url {u : UrlModel} {url : Url} (h : lib.url u.address = some url) :
    payloads lib (u :: urls) = ⟨url, u.priority⟩ :: payloads lib urls := by
  simp [payloads, h]

theorem payloads_ne_nil (h : ∀ u ∈ urls, u.Reparses lib) (hne : urls ≠ []) : payloads lib urls ≠ [] := by
  cases urls with
  | nil => exact absurd rfl hne
  | cons u urls =>
    obtain ⟨url, hurl, -⟩ := h u List.mem_cons_self
    simp [hurl]

/-- Only a task in the region of the general lock changes the queues and the locks. -/
theorem effect_unlocked (h : Effect lib locked now q pc reply a) (hout : LockName.general ∉ pc.region) :
    a.queue.queues = q.queues ∧ pc.lists? reply = none := by
  cases h with
  | put | take | removeDomain | listed => simp [Pc.region] at hout
  | leave h _ => exact absurd (Pc.enqueuing_region h) hout
  | idle h _ => exact ⟨rfl, by cases pc <;> simp_all [Pc.idle, Pc.lists?]⟩
  | enter _ h _ _ => exact ⟨rfl, by cases pc <;> simp_all [Pc.idle, Pc.lists?]⟩
  | _ => exact ⟨rfl, rfl⟩

theorem mem_put_locks {p : Payload} {d : String} :
    d ∈ (q.put p).locks.keys ↔ d = p.url.domain ∨ d ∈ q.locks.keys := by
  unfold BackQueue.put
  dsimp only
  split
  · exact Dicts.Dict.mem_keys_set
  · rename_i hsome
    obtain ⟨lock, hlock⟩ := Option.ne_none_iff_exists'.mp hsome
    have hmem := Dicts.Dict.mem_keys_iff.mpr ⟨lock, hlock⟩
    constructor
    · exact .inr
    · rintro (rfl | hd)
      · exact hmem
      · exact hd

theorem effect_sameKeys (h : Effect lib locked now q pc reply a)
    (hlocks : ∀ d, d ∈ q.queues.keys ↔ d ∈ q.locks.keys) (d : String) :
    d ∈ a.queue.queues.keys ↔ d ∈ a.queue.locks.keys := by
  cases h with
  | @put caller u urls url pc' hurl _ =>
    rw [put_queues, Dicts.Dict.mem_keys_set, mem_put_locks, hlocks]
  | @take domain payload rest lock hscan =>
    have hmem : domain ∈ q.queues.keys := List.mem_map_of_mem (scan_found hscan).1
    refine Dicts.Dict.mem_keys_set.trans (Iff.trans ?_ (hlocks d))
    constructor
    · rintro (rfl | hd)
      · exact hmem
      · exact hd
    · exact .inr
  | removeDomain =>
    refine Dicts.Dict.mem_keys_erase.trans (Iff.trans ?_ Dicts.Dict.mem_keys_erase.symm)
    rw [hlocks]
  | _ => exact hlocks d

/-- A queued domain has a release time after a step, or the task is about to set
it, or it was queued before and the task was not about to. -/
theorem advance_dated (h : advance lib locked now q pc reply = some a) {d : String}
    (hd : d ∈ a.queue.queues.keys) : d ∈ a.queue.releaseTimes.keys ∨
      (∃ caller urls, a.pc = .domainReleaseTime caller d urls) ∨
      (d ∈ q.queues.keys ∧ (d ∈ q.releaseTimes.keys → d ∈ a.queue.releaseTimes.keys) ∧
        ∀ caller urls, pc ≠ .domainReleaseTime caller d urls) := by
  by_cases hpc : ∃ caller urls, pc = .domainReleaseTime caller d urls
  · obtain ⟨caller, urls, rfl⟩ := hpc
    obtain ⟨time, rfl⟩ := advance_releaseTime h
    exact .inl (Dicts.Dict.mem_keys_set.mpr (.inl rfl))
  · have hpc' : ∀ caller urls, pc ≠ .domainReleaseTime caller d urls :=
      fun caller urls he => hpc ⟨caller, urls, he⟩
    cases advance_effect h with
    | @put caller u urls url pc' hurl hnext =>
      rw [put_queues] at hd
      rw [put_releaseTimes] at hnext ⊢
      obtain rfl | hd := Dicts.Dict.mem_keys_set.mp hd
      · by_cases hnone : q.releaseTimes.get? url.domain = none
        · rw [if_pos hnone] at hnext
          exact .inr (.inl ⟨caller, urls, hnext⟩)
        · exact .inl (Dicts.Dict.mem_keys_iff.mpr (Option.ne_none_iff_exists'.mp hnone))
      · exact .inr (.inr ⟨hd, id, hpc'⟩)
    | lookedUp | report =>
      exact .inr (.inr ⟨hd, fun ht => Dicts.Dict.mem_keys_set.mpr (.inr ht), hpc'⟩)
    | @take domain payload rest lock hscan =>
      obtain rfl | hd := Dicts.Dict.mem_keys_set.mp hd
      · exact .inl (Dicts.Dict.mem_keys_set.mpr (.inl rfl))
      · exact .inr (.inr ⟨hd, fun ht => Dicts.Dict.mem_keys_set.mpr (.inr ht), hpc'⟩)
    | removeDomain =>
      obtain ⟨hne, hd⟩ := Dicts.Dict.mem_keys_erase.mp hd
      exact .inr (.inr ⟨hd, fun ht => Dicts.Dict.mem_keys_erase.mpr ⟨hne, ht⟩, hpc'⟩)
    | _ => exact .inr (.inr ⟨hd, id, hpc'⟩)

/-- The queues grow by a put for a new domain only, and a removal is counted. -/
theorem effect_size (h : Effect lib locked now q pc reply a) :
    q.queues.size ≤ a.queue.queues.size + q.removals pc := by
  cases h with
  | put =>
    rw [put_queues, Dicts.Dict.size_set]
    split <;> omega
  | @take domain payload rest lock hscan =>
    change _ ≤ (q.queues.set domain rest).size + _
    rw [Dicts.Dict.size_set]
    split <;> omega
  | @removeDomain domain lock =>
    have hsize := Dicts.Dict.size_erase q.queues domain
    change _ ≤ (q.queues.erase domain).size + _
    simp only [BackQueue.removals, Pc.removing?, Option.any_some, List.contains_iff_mem]
    omega
  | _ => exact Nat.le_add_right _ _

/-- A put needs room for its domain. -/
theorem effect_bounded (h : Effect lib locked now q pc reply a) (hb : q.queues.size ≤ MAX_ACTIVE_DOMAINS)
    (hk : pc.Knows lib q listing returned) : a.queue.queues.size ≤ MAX_ACTIVE_DOMAINS := by
  cases h with
  | @put caller u urls url _ hurl _ =>
    obtain ⟨-, hstored, -, hroom⟩ := hk
    obtain ⟨⟨url', hurl', -, hdomain⟩, hlisting⟩ := hstored u List.mem_cons_self
    obtain rfl := Option.some.inj (hurl.symm.trans hurl')
    rw [put_queues, Dicts.Dict.size_set]
    split
    · exact hb
    · rename_i hnew
      rw [hdomain, hlisting] at hnew
      have hlt := hroom.resolve_left hnew
      omega
  | @take domain payload rest lock hscan =>
    have hmem : domain ∈ q.queues.keys := List.mem_map_of_mem (scan_found hscan).1
    change (q.queues.set domain rest).size ≤ _
    rwa [Dicts.Dict.size_set, if_pos hmem]
  | @removeDomain domain lock =>
    have hsize := Dicts.Dict.size_erase q.queues domain
    change (q.queues.erase domain).size ≤ _
    omega
  | _ => exact hb

/-! ### What the tasks know -/

theorem Pc.idle_knows (h : pc.idle) : pc.Knows lib q listing returned := by
  cases pc <;> simp_all [Pc.idle, Pc.Knows]

theorem Pc.knows_outside (h : LockName.general ∉ pc.inside) : pc.Knows lib q listing returned := by
  cases pc <;> simp_all [Pc.inside, Pc.Knows]

theorem Pc.refilling_inside (h : pc.refilling q listing = true) : LockName.general ∈ pc.inside := by
  unfold Pc.refilling at h
  split at h
  · simp [Pc.inside]
  · simp [Pc.inside]
  · cases h

theorem Enlisted.congr (h : Enlisted lib q domain returned urls) (hq : q'.queues = q.queues) :
    Enlisted lib q' domain returned urls where
  nonempty := h.nonempty
  stored := h.stored
  split := hq ▸ h.split
  room := hq ▸ h.room

theorem Pc.Knows.congr (h : pc.Knows lib q listing returned) (hq : q'.queues = q.queues) :
    pc.Knows lib q' listing returned := by
  cases pc with
  | excludedDomains | distinctDomains | domainUrls =>
    simp only [Pc.Knows, hq] at h ⊢
    exact h
  | putting => exact Enlisted.congr h hq
  | domainReleaseTime => exact ⟨h.1, hq ▸ h.2.1, h.2.2.congr hq⟩
  | _ => trivial

theorem advance_listed {caller : Caller} {snapshot : List UrlModel}
    (h : advance lib locked now q (.domainUrls caller domain) (.urls snapshot) = some a)
    (ha : a.pc.enqueuing = true) : getDomainUrls snapshot domain MAX_URLS_PER_DOMAIN ≠ [] := by
  intro hnil
  simp only [advance, hnil, Option.some.injEq] at h
  subst h
  simp [Pc.idle_not_enqueuing] at ha

/-- The put moves one payload from what is still to be put to the queue. -/
theorem Enlisted.put {u : UrlModel} {url : Url} (h : Enlisted lib q listing returned (u :: urls))
    (hurl : lib.url u.address = some url) : url.domain = listing ∧
      listing ∈ (q.put ⟨url, u.priority⟩).queues.keys ∧ Enlisted lib (q.put ⟨url, u.priority⟩) listing returned urls := by
  obtain ⟨⟨url', hurl', -, hdomain⟩, hlisting⟩ := h.stored u List.mem_cons_self
  obtain rfl := Option.some.inj (hurl.symm.trans hurl')
  have hsame : url.domain = listing := hdomain.trans hlisting
  have hmem : listing ∈ (q.put ⟨url, u.priority⟩).queues.keys := by
    rw [put_queues, Dicts.Dict.mem_keys_set]
    exact .inl hsame.symm
  refine ⟨hsame, hmem, ?_⟩
  constructor
  · exact h.nonempty
  · exact fun v hv => h.stored v (List.mem_cons_of_mem _ hv)
  · rw [get?_put_queues, if_pos hsame.symm]
    have hsplit := h.split
    rw [payloads_cons_of_url hurl, ← hsame] at hsplit
    simpa [hsame] using hsplit
  · exact .inl hmem

/-- What the task that ran knows at its next await. -/
theorem advance_knows (h : advance lib locked now q pc reply = some a)
    (hk : pc.Knows lib q listing (s.returned listing))
    (hreparse : ∀ snapshot, reply = .urls snapshot → ∀ u ∈ snapshot, u.Reparses lib) :
    a.pc.Knows lib a.queue ((pc.lists? reply).elim listing Prod.fst)
      ((pc.lists? reply).elim s.returned (fun l => Function.update s.returned l.1 l.2)
        ((pc.lists? reply).elim listing Prod.fst)) := by
  have heffect := advance_effect h
  cases heffect with
  | idle _ h' | leave _ h' => exact Pc.idle_knows h'
  | current hsize => exact ⟨hsize, fun d hd => hd⟩
  | fetchable excluded => exact ⟨hk.1, fun d hd => List.mem_append_left _ (hk.2 d hd)⟩
  | chosen hchosen => exact ⟨hk.1, fun hd => (mem_getDistinctDomains hchosen).1 (hk.2 _ hd)⟩
  | @listed caller domain snapshot =>
    have hne := advance_listed h rfl
    have hstored : ∀ u ∈ getDomainUrls snapshot domain MAX_URLS_PER_DOMAIN, u.Reparses lib ∧ u.domain = domain := by
      intro u hu
      obtain ⟨hmem, hdomain, -⟩ := mem_getDomainUrls hu
      exact ⟨hreparse snapshot rfl u hmem, hdomain⟩
    have hnone : q.queues.get? domain = none := Dicts.Dict.get?_eq_none_iff.mpr hk.2
    simp only [Pc.lists?, Option.elim_some, Function.update_self]
    constructor
    · exact payloads_ne_nil (fun u hu => (hstored u hu).1) hne
    · exact hstored
    · simp [hnone]
    · exact .inr hk.1
  | @put caller u urls url pc' hurl hnext =>
    obtain ⟨hsame, hmem, hlisted⟩ := Enlisted.put hk hurl
    subst hnext
    dsimp only
    split
    · exact ⟨hsame, hsame ▸ hmem, hlisted⟩
    · exact hlisted
  | lookedUp => exact hk.2.2.congr rfl
  | _ => trivial

theorem lists_of_some {l : String × List UrlModel} (h : pc.lists? reply = some l) :
    ∃ caller snapshot, pc = .domainUrls caller l.1 ∧ l.2 = getDomainUrls snapshot l.1 MAX_URLS_PER_DOMAIN := by
  unfold Pc.lists? at h
  split at h
  · obtain rfl := Option.some.inj h
    exact ⟨_, _, rfl, rfl⟩
  · cases h

/-- Nothing is queued for a domain when a list for it comes in. -/
theorem advance_returned (h : advance lib locked now q pc reply = some a)
    (hk : pc.Knows lib q listing returned) (d : String) (hd : d ∈ a.queue.queues.keys) :
    (pc.lists? reply).elim s.returned (fun l => Function.update s.returned l.1 l.2) d = s.returned d := by
  cases hl : pc.lists? reply with
  | none => rfl
  | some l =>
    obtain ⟨caller, snapshot, rfl, -⟩ := lists_of_some hl
    have hsame : a.queue = q := by
      cases advance_effect h with
      | _ => rfl
    have hne : d ≠ l.1 := by
      rintro rfl
      exact hk.2 (hsame ▸ hd)
    exact Function.update_of_ne hne _ _

/-- Each queue is a stretch of its domain's list. -/
theorem effect_infix (h : Effect lib locked now q pc reply a) (hk : pc.Knows lib q listing (s.returned listing))
    (hq : ∀ d ps, q.queues.get? d = some ps → ps <:+: payloads lib (s.returned d)) {d : String}
    {ps : List Payload} (hd : a.queue.queues.get? d = some ps) : ps <:+: payloads lib (s.returned d) := by
  cases h with
  | @put caller u urls url pc' hurl _ =>
    by_cases he : d = url.domain
    · obtain ⟨hsame, -, hlisted⟩ := Enlisted.put hk hurl
      have hsplit := hlisted.split
      rw [← hsame, ← he, hd, Option.getD_some] at hsplit
      rw [he, hsame] at hsplit ⊢
      exact ⟨[], payloads lib urls, by simpa using hsplit⟩
    · rw [get?_put_queues, if_neg he] at hd
      exact hq d ps hd
  | @take domain payload rest lock hscan =>
    by_cases he : d = domain
    · subst he
      obtain rfl : rest = ps := Option.some.inj ((Dicts.Dict.get?_set_same _ _ _).symm.trans hd)
      have hold := hq d _ (Dicts.Dict.get?_eq_some_iff.mpr (scan_found hscan).1)
      exact (List.suffix_cons payload rest).isInfix.trans hold
    · exact hq d ps ((Dicts.Dict.get?_set_other _ he _).symm.trans hd)
  | @removeDomain domain lock =>
    have he : d ≠ domain := by
      rintro rfl
      simp [BackQueue.removeDomain] at hd
    exact hq d ps ((Dicts.Dict.get?_erase_other _ he).symm.trans hd)
  | _ => exact hq d ps hd

/-- A task whose loop queued an uncounted domain did so before or just now. -/
theorem effect_refilling (h : Effect lib locked now q pc reply a)
    (hk : pc.Knows lib q listing returned)
    (ha : a.pc.refilling a.queue ((pc.lists? reply).elim listing Prod.fst) = true) :
    pc.refilling q listing = true ∨ q.queues.size < a.queue.queues.size := by
  cases h with
  | idle _ h' | leave _ h' =>
    have hin := Pc.refilling_inside ha
    rw [Pc.idle_inside h'] at hin
    cases hin
  | @listed caller domain snapshot =>
    cases caller
    · exact absurd (List.contains_iff_mem.mp ha) hk.2
    · cases ha
  | @put caller u urls url pc' hurl hnext =>
    obtain ⟨hsame, -, -⟩ := Enlisted.put hk hurl
    cases caller
    · by_cases hmem : listing ∈ q.queues.keys
      · exact .inl (List.contains_iff_mem.mpr hmem)
      · rw [put_queues, Dicts.Dict.size_set]
        dsimp only
        rw [hsame, if_neg hmem]
        exact .inr (Nat.lt_succ_self _)
    · subst hnext
      dsimp only at ha
      split at ha <;> cases ha
  | @lookedUp caller domain urls reply time =>
    cases caller
    · exact .inl ha
    · cases ha
  | _ => cases ha

/-- The loop of puts ends with its domain queued. -/
theorem Enlisted.queued (h : Enlisted lib q domain returned []) : domain ∈ q.queues.keys := by
  have hsplit := h.split
  cases hget : q.queues.get? domain with
  | none =>
    rw [hget] at hsplit
    exact absurd hsplit.symm h.nonempty
  | some ps => exact Dicts.Dict.mem_keys_iff.mpr ⟨ps, hget⟩

/-! ### Steps -/

theorem Ran.same_inside (hd : n.Disciplined) {task u : TaskId} (hran : Ran lib n task reply pc a n') {p : Pc}
    (hu : n.tasks.pcs[u]? = some p) (hne : u ≠ task) (hin : LockName.general ∈ p.inside) :
    a.queue.queues = n.queue.queues ∧ pc.lists? reply = none := by
  apply effect_unlocked hran.effect
  intro hregion
  have hholder := hd.held u p hu .general hin
  have htask := Tasks.holder_of_entitled hran.entitled hregion
  exact hne (Option.some.inj (hholder.symm.trans htask))

theorem Ran.at_next {task : TaskId} (hran : Ran lib n task reply pc a n') : n'.tasks.pcs[task]? = some a.pc := by
  rw [hran.tasks]
  exact Tasks.pcs_spawn_of (Tasks.pcs_move_same hran.at_pc)

theorem Traced.step_run {task : TaskId} (h : s.step lib (.run task reply) = some s') : ∃ pc a,
    Ran lib s.node task reply pc a s'.node ∧
      advance lib (fun lock => (s.node.tasks.locks (.domain lock)).locked) s.node.now s.node.queue pc reply = some a ∧
      s' = s.after task pc reply a.pc s'.node := by
  obtain ⟨node, hnode, hs'⟩ := Option.map_eq_some_iff.mp h
  obtain ⟨pc, a, hran, hadvance⟩ := runTask_advance hnode
  simp only [hran.at_pc, hran.at_next] at hs'
  subst hs'
  exact ⟨pc, a, hran, hadvance, rfl⟩

/-- The count of the task that ran: a counted enqueue was a queued domain before. -/
theorem counted_self (hadvance : advance lib locked now q pc reply = some a)
    (hk : pc.Knows lib q listing returned) {refills removed : Nat}
    (hold : refills + (if pc.refilling q listing then 1 else 0) ≤ q.queues.size + removed) :
    pc.refilled a.pc refills +
        (if a.pc.refilling a.queue ((pc.lists? reply).elim listing Prod.fst) then 1 else 0) ≤
      a.queue.queues.size + if pc.begins a.pc then 0 else removed + q.removals pc := by
  have hsize := effect_size (advance_effect hadvance)
  by_cases hdone : pc = .putting .next []
  · subst hdone
    have hqueued := Enlisted.queued hk
    cases reply <;> simp only [advance, Option.some.injEq, reduceCtorEq] at hadvance
    subst hadvance
    simp only [Pc.refilling, List.contains_iff_mem.mpr hqueued, if_true] at hold
    simp only [Pc.refilled, Pc.begins, Caller.return, Pc.refilling]
    simp
    omega
  · by_cases hbegins : pc.begins a.pc
    · rw [Pc.refilled, if_neg hdone, if_pos hbegins, hbegins.1]
      simp [Pc.refilling]
    · rw [Pc.refilled, if_neg hdone, if_neg hbegins, if_neg hbegins]
      by_cases hrefilling : a.pc.refilling a.queue ((pc.lists? reply).elim listing Prod.fst) = true
      · rw [if_pos hrefilling]
        obtain hbefore | hgrown := effect_refilling (advance_effect hadvance) hk hrefilling
        · rw [if_pos hbefore] at hold
          omega
        · omega
      · rw [if_neg hrefilling]
        omega

/-- A queued domain has a release time, or a task is about to set it. -/
def Node.Dated (n : Node) : Prop := ∀ d ∈ n.queue.queues.keys, d ∈ n.queue.releaseTimes.keys ∨
  ∃ pc ∈ n.tasks.pcs, ∃ caller urls, pc = .domainReleaseTime caller d urls

theorem Node.Dated.ran {task : TaskId} (h : n.Dated) (hran : Ran lib n task reply pc a n')
    (hadvance : advance lib locked now n.queue pc reply = some a) : n'.Dated := by
  intro d hqueued
  rw [hran.queue] at hqueued ⊢
  obtain hdated | ⟨caller, urls, hpc⟩ | ⟨hbefore, hkeeps, hother⟩ := advance_dated hadvance hqueued
  · exact .inl hdated
  · exact .inr ⟨a.pc, List.mem_of_getElem? hran.at_next, caller, urls, hpc⟩
  · obtain hdated | ⟨p, hp, caller, urls, rfl⟩ := h d hbefore
    · exact .inl (hkeeps hdated)
    · -- another task is about to set the release time, and still is
      obtain ⟨u, hu⟩ := List.getElem?_of_mem hp
      have hne : u ≠ task := by
        rintro rfl
        exact hother caller urls (Option.some.inj (hran.at_pc.symm.trans hu))
      refine .inr ⟨_, List.mem_of_getElem? (i := u) ?_, caller, urls, rfl⟩
      rw [hran.tasks]
      exact Tasks.pcs_spawn_of ((Tasks.pcs_move_other hne).trans hu)

section Ran

variable {task : TaskId} (h : s.Represented lib) (hran : Ran lib s.node task reply pc a n')
  (hadvance : advance lib locked now s.node.queue pc reply = some a)

include h hran hadvance

theorem Traced.Represented.dated_ran (d : String) (hqueued : d ∈ n'.queue.queues.keys) :
    d ∈ n'.queue.releaseTimes.keys ∨
      ∃ pc ∈ n'.tasks.pcs, ∃ caller urls, pc = .domainReleaseTime caller d urls :=
  Node.Dated.ran h.dated hran hadvance d hqueued

theorem Traced.Represented.queued_ran (d : String) (ps : List Payload) (hps : n'.queue.queues.get? d = some ps) :
    ps <:+: payloads lib ((s.after task pc reply a.pc n').returned d) := by
  have hk := h.knows pc (List.mem_of_getElem? hran.at_pc)
  rw [hran.queue] at hps
  have hreturned := advance_returned (s := s) hadvance hk d (Dicts.Dict.mem_keys_iff.mpr ⟨ps, hps⟩)
  change ps <:+: payloads lib ((pc.lists? reply).elim s.returned (fun l => Function.update s.returned l.1 l.2) d)
  rw [hreturned]
  exact effect_infix hran.effect hk h.queued hps

theorem Traced.Represented.knows_ran (hd : s.node.Disciplined)
    (hreparse : ∀ snapshot, reply = .urls snapshot → ∀ u ∈ snapshot, u.Reparses lib) (p : Pc)
    (hp : p ∈ n'.tasks.pcs) : p.Knows lib n'.queue (s.after task pc reply a.pc n').listing
      ((s.after task pc reply a.pc n').returned (s.after task pc reply a.pc n').listing) := by
  obtain ⟨u, hu⟩ := List.getElem?_of_mem hp
  rw [hran.queue]
  obtain ⟨-, rfl⟩ | ⟨hne, hu⟩ | ⟨d, rfl⟩ := hran.pcs hu
  · exact advance_knows hadvance (h.knows pc (List.mem_of_getElem? hran.at_pc)) hreparse
  · by_cases hin : LockName.general ∈ p.inside
    · obtain ⟨hsame, hlists⟩ := hran.same_inside hd hu hne hin
      have hbefore := h.knows p (List.mem_of_getElem? hu)
      simp only [Traced.after, hlists, Option.elim_none]
      exact hbefore.congr hsame
    · exact Pc.knows_outside hin
  · trivial

theorem Traced.Represented.counted_ran (hd : s.node.Disciplined) (t : TaskId) :
    (s.after task pc reply a.pc n').refills t + (if (n'.tasks.pcs[t]?).any
        (Pc.refilling n'.queue (s.after task pc reply a.pc n').listing) then 1 else 0) ≤
      n'.queue.queues.size + (s.after task pc reply a.pc n').removed t := by
  have hold := h.counted t
  have hk := h.knows pc (List.mem_of_getElem? hran.at_pc)
  rw [hran.queue]
  by_cases ht : t = task
  · subst ht
    rw [hran.at_pc, Option.any_some] at hold
    simp only [Traced.after, Function.update_self, hran.at_next, Option.any_some, true_and]
    exact counted_self hadvance hk hold
  · have hsize := effect_size hran.effect
    have hrefills : (s.after task pc reply a.pc n').refills t = s.refills t := Function.update_of_ne ht _ _
    have hremoved : (s.after task pc reply a.pc n').removed t = s.removed t + s.node.queue.removals pc :=
      if_neg (fun hb => ht hb.1)
    rw [hrefills, hremoved]
    split
    · rename_i hrefilling
      obtain ⟨p, hp, hr⟩ := (Option.any_eq_true _ _).mp hrefilling
      obtain ⟨he, -⟩ | ⟨-, hu⟩ | ⟨d, rfl⟩ := hran.pcs hp
      · exact absurd he ht
      · -- the other task is inside the general lock, so the queues did not change
        obtain ⟨hsame, hlists⟩ := hran.same_inside hd hu ht (Pc.refilling_inside hr)
        have hbefore : p.refilling s.node.queue s.listing = true := by
          simp only [Traced.after, hlists, Option.elim_none] at hr
          unfold Pc.refilling at hr ⊢
          rwa [hsame] at hr
        rw [hu, Option.any_some, if_pos hbefore] at hold
        omega
      · cases hr
    · omega

theorem Traced.Represented.ran (hd : s.node.Disciplined)
    (hreparse : ∀ snapshot, reply = .urls snapshot → ∀ u ∈ snapshot, u.Reparses lib) :
    (s.after task pc reply a.pc n').Represented lib where
  locks d := by
    change d ∈ n'.queue.queues.keys ↔ d ∈ n'.queue.locks.keys
    rw [hran.queue]
    exact effect_sameKeys hran.effect h.locks d
  dated := h.dated_ran hran hadvance
  bounded := by
    change n'.queue.queues.size ≤ _
    rw [hran.queue]
    exact effect_bounded hran.effect h.bounded (h.knows pc (List.mem_of_getElem? hran.at_pc))
  knows := h.knows_ran hran hadvance hd hreparse
  queued := h.queued_ran hran hadvance
  snapshots d := by
    cases hl : pc.lists? reply with
    | none =>
      simp only [Traced.after, hl, Option.elim_none]
      exact h.snapshots d
    | some l =>
      obtain ⟨-, snapshot, -, hlist⟩ := lists_of_some hl
      simp only [Traced.after, hl, Option.elim_some]
      by_cases he : d = l.1
      · subst he
        exact ⟨snapshot, by rw [Function.update_self, hlist]⟩
      · rw [Function.update_of_ne he]
        exact h.snapshots d
  counted := h.counted_ran hran hadvance hd

end Ran

/-- The trace after a step of another kind. -/
theorem Traced.Represented.outside (h : s.Represented lib) {node : Node} (hq : SameWork s.node.queue node.queue)
    (hpcs : node.tasks.pcs = s.node.tasks.pcs) : Traced.Represented lib { s with node } where
  locks d := by
    rw [hq.queues, hq.locks]
    exact h.locks d
  dated d := by
    rw [hq.queues, hq.releaseTimes, hpcs]
    exact h.dated d
  bounded := by
    rw [hq.queues]
    exact h.bounded
  knows pc hpc := (h.knows pc (hpcs ▸ hpc)).congr hq.queues
  queued d := by
    rw [hq.queues]
    exact h.queued d
  snapshots := h.snapshots
  counted t := by
    have hrefilling : Pc.refilling node.queue s.listing = Pc.refilling s.node.queue s.listing := by
      funext pc
      unfold Pc.refilling
      rw [hq.queues]
    rw [hpcs, hq.queues, hrefilling]
    exact h.counted t

/-- A new task is inside no lock, and its counts start at zero where they matter. -/
theorem Traced.Represented.spawn (h : s.Represented lib) {new : Pc} (hout : new.inside = [])
    {refills removed : TaskId → Nat} (hcounts : ∀ t, refills t = s.refills t ∧ removed t = s.removed t ∨
      t = s.node.tasks.pcs.length ∧ refills t = 0) :
    Traced.Represented lib { s with node := { s.node with tasks := s.node.tasks.spawn [new] }, refills, removed } where
  locks := h.locks
  dated d hd := by
    obtain hdated | ⟨p, hp, hat⟩ := h.dated d hd
    · exact .inl hdated
    · exact .inr ⟨p, List.mem_append_left _ hp, hat⟩
  bounded := h.bounded
  knows pc hpc := by
    obtain hpc | hpc := List.mem_append.mp hpc
    · exact h.knows pc hpc
    · rw [List.mem_singleton.mp hpc]
      exact Pc.knows_outside (by simp [hout])
  queued := h.queued
  snapshots := h.snapshots
  counted t := by
    have hold := h.counted t
    have hnew (p : Pc) (hp : (s.node.tasks.spawn [new]).pcs[t]? = some p)
        (hr : p.refilling s.node.queue s.listing = true) : s.node.tasks.pcs[t]? = some p := by
      apply (Tasks.pcs_spawn hp).resolve_right
      intro hmem
      have hin := Pc.refilling_inside hr
      rw [List.mem_singleton.mp hmem, hout] at hin
      cases hin
    change refills t + (if ((s.node.tasks.spawn [new]).pcs[t]?).any (Pc.refilling s.node.queue s.listing) then 1 else 0) ≤
      s.node.queue.queues.size + removed t
    split
    · rename_i hrefilling
      obtain ⟨p, hp, hr⟩ := (Option.any_eq_true _ _).mp hrefilling
      have hu := hnew p hp hr
      rw [hu, Option.any_some, if_pos hr] at hold
      obtain ⟨hrefills, hremoved⟩ | ⟨rfl, -⟩ := hcounts t
      · omega
      · simp at hu
    · obtain ⟨hrefills, hremoved⟩ | ⟨-, hrefills⟩ := hcounts t
      · omega
      · omega

theorem Traced.Represented.step {action : Action} (h : s.Represented lib) (hd : s.node.Disciplined)
    (hreparse : StoredReparse lib s action) (hstep : s.step lib action = some s') : s'.Represented lib := by
  cases action with
  | run task reply =>
    obtain ⟨pc, a, hran, hadvance, hafter⟩ := Traced.step_run hstep
    rw [hafter]
    exact h.ran hran hadvance hd (fun snapshot he => hreparse task snapshot (he ▸ rfl))
  | loop =>
    obtain ⟨node, hnode, rfl⟩ := Option.map_eq_some_iff.mp hstep
    cases hnode
    apply h.spawn rfl
    intro t
    by_cases ht : t = s.node.tasks.pcs.length
    · subst ht
      exact .inr ⟨rfl, Function.update_self ..⟩
    · exact .inl ⟨Function.update_of_ne ht _ _, Function.update_of_ne ht _ _⟩
  | waitForDrain timeout =>
    obtain ⟨node, hnode, rfl⟩ := Option.map_eq_some_iff.mp hstep
    simp only [Node.step] at hnode
    split at hnode <;> cases hnode
    exact h.spawn rfl (fun _ => .inl ⟨rfl, rfl⟩)
  | tick now =>
    obtain ⟨node, hnode, rfl⟩ := Option.map_eq_some_iff.mp hstep
    simp only [Node.step] at hnode
    split at hnode <;> cases hnode
    exact h.outside (.refl _) rfl
  | grant | setBuckets | setReady =>
    obtain ⟨node, hnode, rfl⟩ := Option.map_eq_some_iff.mp hstep
    cases hnode
    exact h.outside ⟨rfl, rfl, rfl, rfl, rfl, id⟩ rfl
  | drain =>
    obtain ⟨node, hnode, rfl⟩ := Option.map_eq_some_iff.mp hstep
    cases hnode
    exact h.outside ⟨rfl, rfl, rfl, rfl, rfl, fun _ => rfl⟩ rfl

end

end Linksurf
