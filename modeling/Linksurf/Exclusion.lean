import Linksurf.Accounting

/-!
# One fetch per domain

`next` hands a payload out with the lock its domain has at that moment. All
payloads of a domain still to be fetched carry one lock as long as `put` creates
a lock only for a domain that has none of them; a cleanup followed by another
enqueue while a payload waits for `start_crawl` breaks that.
-/
namespace Linksurf

open Monitor Execution

/-- Tasks fetching one domain hold one lock object, so there is one of them. -/
def Node.OneFetch (n : Node) : Prop :=
  ∀ (t u : TaskId) (p q : Payload) (l m : LockId), n.tasks.pcs[t]? = some (.fetching p l) →
    n.tasks.pcs[u]? = some (.fetching q m) → p.url.domain = q.url.domain → l = m ∧ t = u

/-- If the step is a `put` that creates a lock, then no payload of that domain
was handed out and is still to be fetched. -/
def FreshLock (lib : Externals) (n : Node) (action : Action) : Prop :=
  ∀ (task : TaskId) (caller : Caller) (u : UrlModel) (urls : List UrlModel) (url : Url),
    action = .run task .done → n.tasks.pcs[task]? = some (.putting caller (u :: urls)) →
    lib.url u.address = some url → n.queue.locks.get? url.domain = none →
    ∀ pc ∈ n.tasks.pcs, ∀ p l, pc.toFetch? = some (p, l) → p.url.domain ≠ url.domain

/-- Payloads of a domain that are still to be fetched carry one lock, which is
the domain's lock if it has one. -/
structure Node.SameLocks (n : Node) : Prop where
  current : ∀ pc ∈ n.tasks.pcs, ∀ p l, pc.toFetch? = some (p, l) →
    ∀ m, n.queue.locks.get? p.url.domain = some m → m = l
  shared : ∀ pc ∈ n.tasks.pcs, ∀ p l, pc.toFetch? = some (p, l) →
    ∀ pc' ∈ n.tasks.pcs, ∀ p' l', pc'.toFetch? = some (p', l') → p.url.domain = p'.url.domain → l = l'

section

variable {lib : Externals} {locked : LockId → Bool} {now : Time} {q : BackQueue} {pc : Pc}
  {reply : Reply} {a : Advance} {n n' : Node}

theorem Pc.idle_toFetch (h : pc.idle) : pc.toFetch? = none := by
  cases pc <;> simp_all [Pc.idle, Pc.toFetch?]

/-- A payload to fetch was one already or was just handed out. -/
theorem effect_toFetch (h : Effect lib locked now q pc reply a) {p : Payload} {l : LockId}
    (ha : a.pc.toFetch? = some (p, l)) : pc.toFetch? = some (p, l) ∨
      (∃ domain rest, q.scan now locked = .found domain p rest l ∧ a.queue.locks = q.locks) := by
  cases h with
  | idle _ h' => rw [Pc.idle_toFetch h'] at ha; cases ha
  | leave _ h' => rw [Pc.idle_toFetch h'] at ha; cases ha
  | put _ hpc => subst hpc; dsimp only at ha; split at ha <;> cases ha
  | take hscan =>
    obtain ⟨rfl, rfl⟩ := Prod.mk.inj (Option.some.inj ha)
    exact .inr ⟨_, _, hscan, rfl⟩
  | stored => exact .inl ha
  | queued => exact .inl ha
  | fetch => exact .inl ha
  | _ => cases ha

theorem put_locks_other (p : Payload) {d : String} (h : d ≠ p.url.domain ∨ q.locks.get? d ≠ none) :
    (q.put p).locks.get? d = q.locks.get? d := by
  unfold BackQueue.put
  dsimp only
  split
  · rename_i hnone
    rcases h with h | h
    · exact Dicts.Dict.get?_set_other _ h _
    · refine Dicts.Dict.get?_set_other _ (fun he => h ?_) _
      rw [he]; exact hnone
  · rfl

/-- A domain's lock changes by a `put` that creates one or by a cleanup. -/
theorem effect_locks (h : Effect lib locked now q pc reply a) {d : String} {m : LockId}
    (ha : a.queue.locks.get? d = some m) : q.locks.get? d = some m ∨
      (q.locks.get? d = none ∧ reply = .done ∧ ∃ caller u urls url, pc = .putting caller (u :: urls) ∧
        lib.url u.address = some url ∧ url.domain = d) := by
  cases h with
  | @put caller u urls url _ hurl _ =>
    by_cases hd : d = url.domain
    · by_cases hnone : q.locks.get? d = none
      · exact .inr ⟨hnone, rfl, caller, u, urls, url, rfl, hurl, hd.symm⟩
      · exact .inl ((put_locks_other _ (.inr hnone)).symm.trans ha)
    · exact .inl ((put_locks_other ⟨url, u.priority⟩ (.inl hd)).symm.trans ha)
  | @removeDomain domain _ =>
    refine .inl ?_
    by_cases hd : d = domain
    · subst hd
      simp [BackQueue.removeDomain] at ha
    · exact (Dicts.Dict.get?_erase_other _ hd).symm.trans ha
  | _ => exact .inl ha

theorem Node.SameLocks.ran (h : n.SameLocks) (hk : n.queue.Keyed) {task : TaskId}
    (hran : Ran lib n task reply pc a n') (hfresh : FreshLock lib n (.run task reply)) : n'.SameLocks := by
  have hmem := List.mem_of_getElem? hran.at_pc
  -- every payload to fetch after the step, traced back before it
  have hback : ∀ pc' ∈ n'.tasks.pcs, ∀ p l, pc'.toFetch? = some (p, l) →
      (∃ pc₀ ∈ n.tasks.pcs, pc₀.toFetch? = some (p, l)) ∨
      (n.queue.locks.get? p.url.domain = some l ∧ n'.queue.locks = n.queue.locks) := by
    intro pc' hpc' p l hp
    obtain rfl | hpc' | ⟨d, rfl⟩ := hran.mem_pcs hpc'
    · rcases effect_toFetch hran.effect hp with hp | ⟨d, rest, hscan, hlocks⟩
      · exact .inl ⟨pc, hmem, hp⟩
      · obtain ⟨hin, -, hlock, -⟩ := scan_found hscan
        have hd : p.url.domain = d := hk _ hin p List.mem_cons_self
        exact .inr ⟨hd ▸ hlock, by rw [hran.queue, hlocks]⟩
    · exact .inl ⟨pc', hpc', hp⟩
    · cases hp
  constructor
  · intro pc' hpc' p l hp m hm
    rcases hback pc' hpc' p l hp with ⟨pc₀, hpc₀, hp₀⟩ | ⟨hl, hsame⟩
    · rw [hran.queue] at hm
      rcases effect_locks hran.effect hm with hold | ⟨hnone, hreply, caller, u, urls, url, hpc, hurl, hd⟩
      · exact h.current pc₀ hpc₀ p l hp₀ m hold
      · subst hreply
        exact absurd hd.symm (hfresh task caller u urls url rfl (hpc ▸ hran.at_pc) hurl (hd ▸ hnone) pc₀ hpc₀ p l hp₀)
    · rw [hsame, hl] at hm
      exact (Option.some.inj hm).symm
  · intro pc₁ hpc₁ p l hp pc₂ hpc₂ p' l' hp' hd
    rcases hback pc₁ hpc₁ p l hp with ⟨pa, hpa, ha⟩ | ⟨hl, -⟩ <;>
      rcases hback pc₂ hpc₂ p' l' hp' with ⟨pb, hpb, hb⟩ | ⟨hl', -⟩
    · exact h.shared pa hpa p l ha pb hpb p' l' hb hd
    · exact (h.current pa hpa p l ha l' (hd ▸ hl')).symm
    · exact h.current pb hpb p' l' hb l (hd ▸ hl)
    · rw [hd, hl'] at hl
      exact (Option.some.inj hl).symm

theorem Node.SameLocks.spawn (h : n.SameLocks) {new : List Pc} (hnew : ∀ p ∈ new, p.toFetch? = none) :
    Node.SameLocks { n with tasks := n.tasks.spawn new } := by
  have hold : ∀ pc ∈ (n.tasks.spawn new).pcs, ∀ p l, pc.toFetch? = some (p, l) → pc ∈ n.tasks.pcs := by
    intro pc hpc p l hp
    refine (List.mem_append.mp hpc).resolve_right (fun hin => ?_)
    rw [hnew pc hin] at hp
    cases hp
  constructor
  · intro pc hpc p l hp
    exact h.current pc (hold pc hpc p l hp) p l hp
  · intro pc hpc p l hp pc' hpc' p' l' hp'
    exact h.shared pc (hold pc hpc p l hp) p l hp pc' (hold pc' hpc' p' l' hp') p' l' hp'

end

theorem Node.SameLocks.step {lib : Externals} {n n' : Node} {action : Action} (h : n.SameLocks)
    (hk : n.queue.Keyed) (hfresh : FreshLock lib n action) (hstep : n.step lib action = some n') :
    n'.SameLocks := by
  cases action with
  | run task reply =>
    obtain ⟨pc, a, hran⟩ := runTask_ran hstep
    exact h.ran hk hran hfresh
  | tick now =>
    simp only [Node.step] at hstep
    split at hstep <;> cases hstep
    exact ⟨h.current, h.shared⟩
  | loop => cases hstep; exact h.spawn (by simp [Pc.toFetch?])
  | waitForDrain timeout =>
    simp only [Node.step] at hstep
    split at hstep <;> cases hstep
    exact h.spawn (by simp [Pc.toFetch?])
  | grant | drain | setBuckets | setReady => cases hstep; exact ⟨h.current, h.shared⟩

theorem Node.initial_sameLocks : Node.initial.SameLocks where
  current := by intro pc hpc; cases hpc
  shared := by intro pc hpc; cases hpc

/-- In a run in which every lock that `put` creates is for a domain without
payloads still to be fetched, no domain is ever fetched twice at once. -/
theorem one_fetch_per_domain (lib : Externals) (n : Node)
    (h : Reaches (Node.step lib) (FreshLock lib) Node.initial n) : n.OneFetch := by
  have hs : n.Sound lib := sound_of_reaches h
  have hl := h.invariant (fun n => n.SameLocks ∧ n.queue.Keyed)
    ⟨Node.initial_sameLocks, (Node.initial_sound : Node.initial.Sound lib).keyed⟩
    (fun s action s' hs hfresh hstep => ⟨hs.1.step hs.2 hfresh hstep, hs.2.step (step_stepped hstep)⟩)
  intro t u p q l m ht hu hd
  have hlm : l = m := hl.1.shared _ (List.mem_of_getElem? ht) p l rfl _ (List.mem_of_getElem? hu) q m rfl hd
  subst hlm
  refine ⟨rfl, ?_⟩
  exact hs.disciplined.held.exclusive (k := .domain l) ht hu (by simp [Pc.inside]) (by simp [Pc.inside])

/-- A test that implies `FreshLock`: nothing is to be fetched during a `put`. -/
def putAlone (n : Node) : Action → Bool
  | .run task .done =>
    match n.tasks.pcs[task]? with
    | some (.putting _ _) => n.tasks.pcs.all (fun pc => pc.toFetch?.isNone)
    | _ => true
  | _ => true

theorem freshLock_of_putAlone (lib : Externals) (n : Node) (action : Action)
    (h : putAlone n action = true) : FreshLock lib n action := by
  rintro task caller u urls url rfl hpc - - pc hmem p l hp
  simp only [putAlone, hpc] at h
  have hnone := List.all_eq_true.mp h pc hmem
  simp [hp] at hnone

/-- One handler pulls two pages of a site and fetches the second. -/
theorem one_fetch_per_domain_site : ∃ n, Reaches (Node.step site) (FreshLock site) Node.initial n ∧
    n.tasks.pcs[0]? = some (.fetching ⟨⟨"https://site/2", "2", "site", 443⟩, 0⟩ 0) ∧ n.OneFetch := by
  obtain ⟨n, hn, hfetching⟩ := exists_reaches (Node.step site) Node.initial putAlone
    (freshLock_of_putAlone site)
    [.setBuckets [⟨1, .idle, some "a", none, 0⟩], .loop, .run 0 .done, .run 0 .done,
      .run 0 (.domains []), .run 0 (.urls [page1, page2]), .run 0 (.urls [page1, page2]), .run 0 .done,
      .run 0 (.releaseTime none), .run 0 .done, .run 0 .done, .drain, .run 0 .done, .run 0 .done,
      .run 0 .done, .run 0 .done, .run 0 .done, .run 0 (.fetched .empty), .run 0 .done, .run 0 .done,
      .tick 2, .run 0 .done, .run 0 .done, .run 0 .done, .run 0 .done, .run 0 .done]
    (fun n => n.tasks.pcs[0]? = some (.fetching ⟨⟨"https://site/2", "2", "site", 443⟩, 0⟩ 0))
    (by decide +kernel)
  exact ⟨n, hn, by simpa using hfetching, one_fetch_per_domain site n hn⟩

/-- While page 1 waits for `start_crawl`, page 2 is fetched and reported, the
emptied domain is removed and enqueued again with a new lock, and both handlers
fetch page 1 at once. -/
theorem two_fetches_of_a_site : ¬ ∀ n, Reaches (Node.step site) Free Node.initial n → n.OneFetch := by
  intro hall
  obtain ⟨n, hn, hfetching⟩ := exists_reaches_free (Node.step site) Node.initial
    [.setBuckets [⟨1, .idle, some "a", none, 0⟩], .loop, .loop, .run 0 .done, .run 0 .done,
      .run 0 (.domains []), .run 0 (.urls [page1, page2]), .run 0 (.urls [page1, page2]), .run 0 .done,
      .run 0 (.releaseTime none), .run 0 .done, .run 0 .done,
      -- no other domain: the first handler scans and takes page 1, the second page 2
      .run 0 .done, .run 0 .done, .run 0 (.domains []), .run 0 (.urls []), .run 0 .done, .run 0 .done,
      .tick 2, .run 1 .done, .run 1 .done, .run 1 (.domains []), .run 1 (.urls []), .run 1 .done,
      .run 1 .done,
      -- page 2 is stored, fetched and reported, and the cleanup removes the domain
      .run 1 .done, .run 1 .done, .run 1 .done, .run 1 (.fetched .empty), .run 1 .done, .run 1 .done,
      .run 2 .done, .run 2 .done, .run 2 .done, .run 2 .done,
      -- page 1 is still listed as not crawled and is enqueued again
      .run 2 .done, .run 2 (.domains []), .run 2 (.urls [page1]), .run 2 (.urls [page1]), .run 2 .done,
      .run 2 (.releaseTime none), .run 2 .done,
      .run 1 .done, .run 1 .done, .run 1 (.domains []), .run 1 (.urls []), .run 1 .done, .run 1 .done,
      .run 1 .done, .run 1 .done, .run 1 .done, .run 0 .done, .run 0 .done, .run 0 .done]
    (fun n => n.tasks.pcs[0]? = some (.fetching ⟨⟨"https://site/1", "1", "site", 443⟩, 0⟩ 0) ∧
      n.tasks.pcs[1]? = some (.fetching ⟨⟨"https://site/1", "1", "site", 443⟩, 0⟩ 1))
    (by decide +kernel)
  obtain ⟨h₀, h₁⟩ : n.tasks.pcs[0]? = some (.fetching ⟨⟨"https://site/1", "1", "site", 443⟩, 0⟩ 0) ∧
      n.tasks.pcs[1]? = some (.fetching ⟨⟨"https://site/1", "1", "site", 443⟩, 0⟩ 1) := by
    simpa using hfetching
  exact absurd (hall n hn 0 1 _ _ _ _ h₀ h₁ rfl).1 (by decide)

end Linksurf
