import Linksurf.Accounting

/-!
# Active-domain slots

A domain occupies a slot while it is a key of `queues`. Only `report` decides
that an emptied domain is cleaned up, so a slot is covered as long as the domain
has a queued payload, a payload `report` has not decided on, or a cleanup task.
The exit of `download` for a failed `start_crawl` completes its payload without
that decision.
-/
namespace Linksurf

open Monitor Execution

/-- The payload of a domain that was handed out and not reported yet. -/
def Pc.undecided? : Pc → Option Payload
  | .handed p _ | .started p _ | .domainLock p _ | .fetching p _ | .reporting p _ _ => some p
  | _ => none

/-- The task reports or cleans up the domain later. -/
def Pc.Covers (pc : Pc) (d : String) : Prop :=
  (∃ p, pc.undecided? = some p ∧ p.url.domain = d) ∨ pc.cleaning? = some d

/-- A payload of the domain is queued. -/
def BackQueue.Waiting (q : BackQueue) (d : String) : Prop := ∃ ps, q.queues.get? d = some ps ∧ ps ≠ []

/-- Every domain in `queues` has a queued payload, one that has not completed,
or a cleanup task. -/
def Node.NoLeak (n : Node) : Prop :=
  ∀ d ∈ n.queue.queues.keys, n.queue.Waiting d ∨
    (∃ pc ∈ n.tasks.pcs, ∃ p, pc.payload? = some p ∧ p.url.domain = d) ∨
    ∃ pc ∈ n.tasks.pcs, pc.cleaning? = some d

/-- A cover of a domain's slot by something other than the given task. -/
def Node.CoveredBesides (n : Node) (task : TaskId) (d : String) : Prop :=
  n.queue.Waiting d ∨ ∃ (u : TaskId) (pc : Pc), u ≠ task ∧ n.tasks.pcs[u]? = some pc ∧ pc.Covers d

/-- If the step is a failure of `start_crawl`, the domain of its payload is not
active or stays covered without it. -/
def FailureCovered (n : Node) (action : Action) : Prop :=
  ∀ (task : TaskId) (p : Payload) (l : LockId), action = .run task .raised →
    n.tasks.pcs[task]? = some (.handed p l) →
    p.url.domain ∉ n.queue.queues.keys ∨ n.CoveredBesides task p.url.domain

/-- The invariant: active domains have locks, and every slot is covered. -/
structure Node.Covered (n : Node) : Prop where
  locks : ∀ d ∈ n.queue.queues.keys, n.queue.locks.get? d ≠ none
  covered : ∀ d ∈ n.queue.queues.keys, n.queue.Waiting d ∨ ∃ pc ∈ n.tasks.pcs, pc.Covers d

section

variable {lib : Externals} {locked : LockId → Bool} {now : Time} {q : BackQueue} {pc : Pc}
  {reply : Reply} {a : Advance} {n n' : Node}

theorem Pc.undecided_payload {p : Payload} (h : pc.undecided? = some p) : pc.payload? = some p := by
  cases pc <;> simp_all [Pc.undecided?, Pc.payload?]

theorem Pc.idle_not_covers (h : pc.idle) {d : String} : ¬ pc.Covers d := by
  cases pc <;> simp_all [Pc.idle, Pc.Covers, Pc.undecided?, Pc.cleaning?]

theorem Pc.enqueuing_not_covers (h : pc.enqueuing) {d : String} : ¬ pc.Covers d := by
  cases pc <;> simp_all [Pc.enqueuing, Pc.Covers, Pc.undecided?, Pc.cleaning?]

theorem Node.Covered.noLeak (h : n.Covered) : n.NoLeak := by
  intro d hd
  refine (h.covered d hd).imp_right (fun ⟨pc, hpc, hc⟩ => ?_)
  rcases hc with ⟨p, hp, hdom⟩ | hc
  · exact .inl ⟨pc, hpc, p, Pc.undecided_payload hp, hdom⟩
  · exact .inr ⟨pc, hpc, hc⟩

theorem get?_put_queues {p : Payload} {d : String} : (q.put p).queues.get? d =
    if d = p.url.domain then some ((q.queues.get? p.url.domain).getD [] ++ [p]) else q.queues.get? d := by
  rw [put_queues, Dicts.Dict.get?_set]

theorem put_lock (p : Payload) : (q.put p).locks.get? p.url.domain ≠ none := by
  unfold BackQueue.put
  dsimp only
  split
  · simp
  · assumption

theorem put_locks_of_some (p : Payload) {d : String} (h : q.locks.get? d ≠ none) :
    (q.put p).locks.get? d ≠ none := by
  by_cases hd : d = p.url.domain
  · subst hd; exact put_lock p
  · unfold BackQueue.put
    dsimp only
    split
    · rwa [Dicts.Dict.get?_set_other _ hd]
    · exact h

/-- A domain active after a step was active before, or was just put. -/
theorem effect_active (h : Effect lib locked now q pc reply a) {d : String} (ha : d ∈ a.queue.queues.keys)
    (hlocks : ∀ d ∈ q.queues.keys, q.locks.get? d ≠ none) :
    a.queue.locks.get? d ≠ none ∧
      (d ∈ q.queues.keys ∨ a.queue.Waiting d) := by
  cases h with
  | @put caller u urls url _ hurl _ =>
    obtain ⟨ps, hps⟩ := Dicts.Dict.mem_keys_iff.mp ha
    have hget := hps
    rw [get?_put_queues] at hget
    by_cases hd : d = url.domain
    · subst hd
      exact ⟨put_lock _, .inr ⟨_, get?_put_queues.trans (if_pos rfl), by simp⟩⟩
    · rw [if_neg hd] at hget
      have hold := Dicts.Dict.mem_keys_iff.mpr ⟨ps, hget⟩
      exact ⟨put_locks_of_some _ (hlocks d hold), .inl hold⟩
  | @take domain payload rest lock hscan =>
    obtain ⟨ps, hps⟩ := Dicts.Dict.mem_keys_iff.mp ha
    change (q.queues.set domain rest).get? d = some ps at hps
    have hold : d ∈ q.queues.keys := by
      by_cases hd : d = domain
      · exact hd ▸ List.mem_map_of_mem (scan_found hscan).1
      · rw [Dicts.Dict.get?_set_other _ hd] at hps
        exact Dicts.Dict.mem_keys_iff.mpr ⟨ps, hps⟩
    exact ⟨hlocks d hold, .inl hold⟩
  | @removeDomain domain _ =>
    obtain ⟨ps, hps⟩ := Dicts.Dict.mem_keys_iff.mp ha
    change (q.queues.erase domain).get? d = some ps at hps
    have hd : d ≠ domain := by
      rintro rfl
      simp at hps
    rw [Dicts.Dict.get?_erase_other _ hd] at hps
    have hold := Dicts.Dict.mem_keys_iff.mpr ⟨ps, hps⟩
    refine ⟨?_, .inl hold⟩
    change (q.locks.erase domain).get? d ≠ none
    rw [Dicts.Dict.get?_erase_other _ hd]
    exact hlocks d hold
  | _ => exact ⟨hlocks d ha, .inl ha⟩

/-- A waiting domain stays so, or its last payload is handed out. -/
theorem effect_waiting (hk : q.Keyed) (h : Effect lib locked now q pc reply a) {d : String}
    (hd : q.Waiting d) (ha : d ∈ a.queue.queues.keys) : a.queue.Waiting d ∨ a.pc.Covers d := by
  obtain ⟨ps, hps, hne⟩ := hd
  cases h with
  | @put caller u urls url _ hurl _ =>
    refine .inl ?_
    by_cases hdom : d = url.domain
    · exact ⟨_, get?_put_queues.trans (if_pos hdom), by simp⟩
    · exact ⟨ps, get?_put_queues.trans ((if_neg hdom).trans hps), hne⟩
  | @take domain payload rest lock hscan =>
    by_cases hdom : d = domain
    · exact .inr (.inl ⟨payload, rfl, (hk _ (scan_found hscan).1 payload List.mem_cons_self).trans hdom.symm⟩)
    · exact .inl ⟨ps, (Dicts.Dict.get?_set_other _ hdom _).trans hps, hne⟩
  | @removeDomain domain _ =>
    obtain ⟨ps', hps'⟩ := Dicts.Dict.mem_keys_iff.mp ha
    have hdom : d ≠ domain := by
      rintro rfl
      simp [BackQueue.removeDomain] at hps'
    exact .inl ⟨ps, (Dicts.Dict.get?_erase_other _ hdom).trans hps, hne⟩
  | _ => exact .inl ⟨ps, hps, hne⟩

/-- A task that covers a domain still does after its step, unless the domain
waits, a cleanup was created, or `start_crawl` failed. -/
theorem effect_covers (h : Effect lib locked now q pc reply a) {d : String} (hc : pc.Covers d)
    (ha : d ∈ a.queue.queues.keys) (hlocks : ∀ d ∈ q.queues.keys, q.locks.get? d ≠ none) :
    a.queue.Waiting d ∨ a.pc.Covers d ∨ .cleanup d ∈ a.created ∨
      (a.queue = q ∧ reply = .raised ∧ ∃ p l, pc = .handed p l ∧ p.url.domain = d) := by
  have hnone : pc.undecided? = none → pc.cleaning? = some d := fun hu => hc.resolve_left (by simp [hu])
  cases h with
  | idle h _ => exact absurd hc (Pc.idle_not_covers h)
  | enter _ h _ _ => exact absurd hc (Pc.idle_not_covers h)
  | leave h _ => exact absurd hc (Pc.enqueuing_not_covers h)
  | stored | queued | fetch | fetched => exact .inr (.inl hc)
  | @abandoned payload lock =>
    rcases hc with ⟨p, hp, hdom⟩ | hc
    · obtain rfl := Option.some.inj hp
      exact .inr (.inr (.inr ⟨rfl, rfl, _, _, rfl, hdom⟩))
    · cases hc
  | @report payload lock fetched =>
    rcases hc with ⟨p, hp, rfl⟩ | hc
    · obtain rfl := Option.some.inj hp
      by_cases hdue : q.cleanupDue payload.url.domain fetched
      · exact .inr (.inr (.inl (by simp [hdue])))
      · obtain ⟨ps, hps⟩ := Dicts.Dict.mem_keys_iff.mp ha
        refine .inl ⟨ps, hps, ?_⟩
        rintro rfl
        simp [BackQueue.cleanupDue] at hdue
        exact hdue.2 hps
    · cases hc
  | noCleanup h =>
    obtain rfl := Option.some.inj (hnone rfl)
    exact absurd h (hlocks _ ha)
  | cleanup | cleanupDomain => exact .inr (.inl (.inr (hnone rfl)))
  | removeDomain =>
    obtain rfl := Option.some.inj (hnone rfl)
    obtain ⟨ps, hps⟩ := Dicts.Dict.mem_keys_iff.mp ha
    simp [BackQueue.removeDomain] at hps
  | _ => cases hnone rfl

theorem Node.Covered.ran (h : n.Covered) (hk : n.queue.Keyed) {task : TaskId}
    (hran : Ran lib n task reply pc a n') (hfail : FailureCovered n (.run task reply)) : n'.Covered := by
  have hmem := List.mem_of_getElem? hran.at_pc
  have hself : a.pc ∈ n'.tasks.pcs := by
    rw [hran.tasks]
    exact List.mem_append_left _ (List.mem_of_getElem? (Tasks.pcs_move_same hran.at_pc))
  have hnew : ∀ p ∈ a.created, p ∈ n'.tasks.pcs := by
    intro p hp
    rw [hran.tasks]
    exact List.mem_append_right _ hp
  have hother : ∀ (u : TaskId) (p : Pc), u ≠ task → n.tasks.pcs[u]? = some p → p ∈ n'.tasks.pcs := by
    intro u p hu hp
    rw [hran.tasks]
    refine List.mem_append_left _ (List.mem_of_getElem? (i := u) ?_)
    rwa [Tasks.pcs_move_other hu]
  constructor
  · intro d hd
    rw [hran.queue] at hd ⊢
    exact (effect_active hran.effect hd h.locks).1
  · intro d hd
    rw [hran.queue] at hd ⊢
    have hwait : n.queue.Waiting d → a.queue.Waiting d ∨ ∃ pc ∈ n'.tasks.pcs, pc.Covers d := fun hw =>
      (effect_waiting hk hran.effect hw hd).imp_right (⟨a.pc, hself, ·⟩)
    rcases (effect_active hran.effect hd h.locks).2 with hold | hw
    · rcases h.covered d hold with hw | ⟨p, hp, hc⟩
      · exact hwait hw
      · obtain ⟨u, hu⟩ := List.getElem?_of_mem hp
        by_cases hut : u = task
        · subst hut
          obtain rfl := Option.some.inj (hu.symm.trans hran.at_pc)
          rcases effect_covers hran.effect hc hd h.locks with hw | hc | hc | ⟨hq, hreply, p', l, hpc, hdom⟩
          · exact .inl hw
          · exact .inr ⟨a.pc, hself, hc⟩
          · exact .inr ⟨_, hnew _ hc, .inr rfl⟩
          · -- the failed `start_crawl`: the domain has another cover
            subst hreply hpc hdom
            rcases (hfail u p' l rfl hran.at_pc).resolve_left (fun hout => hout hold) with hw | ⟨v, p, hv, hp, hc⟩
            · exact hwait hw
            · exact .inr ⟨p, hother v p hv hp, hc⟩
        · exact .inr ⟨p, hother u p hut hu, hc⟩
    · exact .inl hw

end

theorem Node.initial_covered : Node.initial.Covered where
  locks := by intro d hd; cases hd
  covered := by intro d hd; cases hd

theorem Node.Covered.spawn {n : Node} (h : n.Covered) (new : List Pc) :
    Node.Covered { n with tasks := n.tasks.spawn new } where
  locks := h.locks
  covered d hd := (h.covered d hd).imp_right (fun ⟨pc, hpc, hc⟩ => ⟨pc, List.mem_append_left _ hpc, hc⟩)

theorem Node.Covered.step {lib : Externals} {n n' : Node} {action : Action} (h : n.Covered)
    (hk : n.queue.Keyed) (hfail : FailureCovered n action) (hstep : n.step lib action = some n') :
    n'.Covered := by
  cases action with
  | run task reply =>
    obtain ⟨pc, a, hran⟩ := runTask_ran hstep
    exact h.ran hk hran hfail
  | tick now =>
    simp only [Node.step] at hstep
    split at hstep <;> cases hstep
    exact ⟨h.locks, h.covered⟩
  | loop => cases hstep; exact h.spawn _
  | waitForDrain timeout =>
    simp only [Node.step] at hstep
    split at hstep <;> cases hstep
    exact h.spawn _
  | grant | drain | setBuckets | setReady => cases hstep; exact ⟨h.locks, h.covered⟩

/-- In a run in which `start_crawl` fails only for payloads whose domain keeps
another cover, no active-domain slot leaks. -/
theorem no_slot_leak (lib : Externals) (n : Node)
    (h : Reaches (Node.step lib) FailureCovered Node.initial n) : n.NoLeak := by
  have hc := h.invariant (fun n => n.Covered ∧ n.queue.Keyed)
    ⟨Node.initial_covered, (Node.initial_sound : Node.initial.Sound lib).keyed⟩
    (fun s action s' hs hfail hstep => ⟨hs.1.step hs.2 hfail hstep, hs.2.step (step_stepped hstep)⟩)
  exact hc.1.noLeak

/-- A test that implies `FailureCovered`: `start_crawl` does not fail. -/
def neverRaised (_ : Node) : Action → Bool
  | .run _ .raised => false
  | _ => true

theorem failureCovered_of_neverRaised (n : Node) (action : Action) (h : neverRaised n action = true) :
    FailureCovered n action := by
  rintro task p l rfl -
  cases h

/-- A page is fetched and reported, and its emptied domain awaits its cleanup. -/
theorem no_slot_leak_site : ∃ n, Reaches (Node.step site) FailureCovered Node.initial n ∧
    n.queue.queues.get? "site" = some [] ∧ n.NoLeak := by
  obtain ⟨n, hn, hempty⟩ := exists_reaches (Node.step site) Node.initial neverRaised
    failureCovered_of_neverRaised
    [.setBuckets [⟨1, .idle, some "a", none, 0⟩], .loop, .run 0 .done, .run 0 .done,
      .run 0 (.domains []), .run 0 (.urls [page1]), .run 0 (.urls [page1]), .run 0 .done,
      .run 0 (.releaseTime none), .run 0 .done, .drain, .run 0 .done, .run 0 .done,
      .run 0 .done, .run 0 .done, .run 0 .done, .run 0 (.fetched .empty), .run 0 .done, .run 0 .done]
    (fun n => n.queue.queues.get? "site" = some []) (by decide +kernel)
  exact ⟨n, hn, by simpa using hempty, no_slot_leak site n hn⟩

/-- A slot leaks: the only page of a site is handed out, its `start_crawl` fails
and it is completed. -/
theorem slot_leaks : ¬ ∀ n, Reaches (Node.step site) Free Node.initial n → n.NoLeak := by
  intro hall
  obtain ⟨n, hn, hleak⟩ := exists_reaches_free (Node.step site) Node.initial
    [.setBuckets [⟨1, .idle, some "a", none, 0⟩], .loop, .run 0 .done, .run 0 .done,
      .run 0 (.domains []), .run 0 (.urls [page1]), .run 0 (.urls [page1]), .run 0 .done,
      .run 0 (.releaseTime none), .run 0 .done, .run 0 .done, .run 0 .done, .run 0 (.domains []),
      .run 0 (.urls []), .run 0 .done, .run 0 .done, .run 0 .raised, .run 0 .done]
    (fun n => n.queue.queues.get? "site" = some [] ∧ n.tasks.pcs = [.next]) (by decide +kernel)
  obtain ⟨hempty, hpcs⟩ : n.queue.queues.get? "site" = some [] ∧ n.tasks.pcs = [.next] := by
    simpa using hleak
  rcases hall n hn "site" (Dicts.Dict.mem_keys_iff.mpr ⟨_, hempty⟩) with ⟨ps, hps, hne⟩ | ⟨pc, hpc, p, hp, -⟩ | ⟨pc, hpc, hc⟩
  · exact hne (Option.some.inj (hps.symm.trans hempty))
  · rw [hpcs, List.mem_singleton] at hpc
    subst hpc
    cases hp
  · rw [hpcs, List.mem_singleton] at hpc
    subst hpc
    cases hc

end Linksurf
