import Linksurf.Slots

/-!
# Reports

`report` writes the release time of its payload's domain and looks the domain's
queue up without the general lock. The domain is still queued as long as no
cleanup removes it between `next` handing the payload out and its report.
-/
namespace Linksurf

open Monitor Execution

/-- `should_lock or self.queues[domain].empty()` of `report`; `none` is a `KeyError`. -/
def BackQueue.reportTest (q : BackQueue) (domain : String) (fetched : Fetched) : Option Bool :=
  if fetched.shouldLock then some true else (q.queues.get? domain).map List.isEmpty

/-- The domain whose release time the task is still going to set. -/
def Pc.releasing? : Pc → Option String
  | .domainReleaseTime _ domain _ => some domain
  | pc => pc.undecided?.map (·.url.domain)

/-- A task that reports gets past the lookup of the queue, and only queued
domains have release times. -/
structure Node.ReportsReturn (n : Node) : Prop where
  returns : ∀ p l f, .reporting p l f ∈ n.tasks.pcs → n.queue.reportTest p.url.domain f ≠ none
  releaseTimes : ∀ d ∈ n.queue.releaseTimes.keys, d ∈ n.queue.queues.keys

/-- If the step removes a domain, then every payload of it that was handed out
has been reported. -/
def ReportedFirst (n : Node) (action : Action) : Prop :=
  ∀ (task : TaskId) (d : String) (l : LockId), action = .run task .done →
    n.tasks.pcs[task]? = some (.cleanupGeneral d l) →
    ∀ pc ∈ n.tasks.pcs, ∀ p, pc.undecided? = some p → p.url.domain ≠ d

/-- The invariant: a release time that is or will be set is that of a queued domain. -/
structure Node.Reportable (n : Node) : Prop where
  releasing : ∀ pc ∈ n.tasks.pcs, ∀ d, pc.releasing? = some d → d ∈ n.queue.queues.keys
  releaseTimes : ∀ d ∈ n.queue.releaseTimes.keys, d ∈ n.queue.queues.keys

section

variable {lib : Externals} {locked : LockId → Bool} {now : Time} {q : BackQueue} {pc : Pc}
  {reply : Reply} {a : Advance} {n n' : Node}

/-- The model's decision to clean up is that test. -/
theorem cleanupDue_eq (domain : String) (fetched : Fetched) :
    q.cleanupDue domain fetched = (q.reportTest domain fetched).getD false := by
  unfold BackQueue.cleanupDue BackQueue.reportTest
  by_cases hlock : fetched.shouldLock
  · simp [hlock]
  · cases hget : q.queues.get? domain with
    | none => simp [hlock]
    | some ps => cases ps <;> simp [hlock]

theorem reportTest_ne_none {domain : String} (h : domain ∈ q.queues.keys) (fetched : Fetched) :
    q.reportTest domain fetched ≠ none := by
  obtain ⟨ps, hps⟩ := Dicts.Dict.mem_keys_iff.mp h
  unfold BackQueue.reportTest
  by_cases hlock : fetched.shouldLock <;> simp [hlock, hps]

theorem Pc.idle_releasing (h : pc.idle) : pc.releasing? = none := by
  cases pc <;> simp_all [Pc.idle, Pc.releasing?, Pc.undecided?]

/-- A domain stays queued unless the step is its removal. -/
theorem effect_stays (h : Effect lib locked now q pc reply a) {d : String} (hd : d ∈ q.queues.keys) :
    d ∈ a.queue.queues.keys ∨ (reply = .done ∧ ∃ lock, pc = .cleanupGeneral d lock) := by
  cases h with
  | put =>
    rw [put_queues, Dicts.Dict.mem_keys_set]
    exact .inl (.inr hd)
  | take => exact .inl (Dicts.Dict.mem_keys_set.mpr (.inr hd))
  | @removeDomain domain lock =>
    by_cases he : d = domain
    · subst he
      exact .inr ⟨rfl, lock, rfl⟩
    · exact .inl (Dicts.Dict.mem_keys_erase.mpr ⟨he, hd⟩)
  | _ => exact .inl hd

/-- The domain of a task that will set a release time was just queued or found
queued, or the task was about to set it before. -/
theorem effect_releasing (hk : q.Keyed) (h : Effect lib locked now q pc reply a) {d : String}
    (ha : a.pc.releasing? = some d) : d ∈ a.queue.queues.keys ∨ pc.releasing? = some d := by
  cases h with
  | idle _ h' => rw [Pc.idle_releasing h'] at ha; cases ha
  | leave _ h' => rw [Pc.idle_releasing h'] at ha; cases ha
  | put _ hpc =>
    subst hpc
    dsimp only at ha
    split at ha
    · obtain rfl := Option.some.inj ha
      rw [put_queues]
      exact .inl (Dicts.Dict.mem_keys_set.mpr (.inl rfl))
    · cases ha
  | @take domain payload rest lock hscan =>
    obtain rfl := Option.some.inj ha
    have hdomain := hk _ (scan_found hscan).1 payload List.mem_cons_self
    exact .inl (Dicts.Dict.mem_keys_set.mpr (.inl hdomain))
  | stored | queued | fetch | fetched => exact .inr ha
  | _ => cases ha

/-- A release time is set by the task that was going to, or for a domain `next`
found queued. -/
theorem effect_dates (h : Effect lib locked now q pc reply a) {d : String}
    (ha : d ∈ a.queue.releaseTimes.keys) :
    pc.releasing? = some d ∨ d ∈ a.queue.queues.keys ∨
      (d ∈ q.releaseTimes.keys ∧ (d ∈ q.queues.keys → d ∈ a.queue.queues.keys)) := by
  cases h with
  | @put caller u urls url pc' =>
    rw [put_releaseTimes] at ha
    refine .inr (.inr ⟨ha, fun hd => ?_⟩)
    rw [put_queues, Dicts.Dict.mem_keys_set]
    exact .inr hd
  | lookedUp =>
    obtain rfl | ha := Dicts.Dict.mem_keys_set.mp ha
    · exact .inl rfl
    · exact .inr (.inr ⟨ha, id⟩)
  | @take domain payload rest lock hscan =>
    obtain rfl | ha := Dicts.Dict.mem_keys_set.mp ha
    · exact .inr (.inl (Dicts.Dict.mem_keys_set.mpr (.inl rfl)))
    · exact .inr (.inr ⟨ha, fun hd => Dicts.Dict.mem_keys_set.mpr (.inr hd)⟩)
  | report =>
    obtain rfl | ha := Dicts.Dict.mem_keys_set.mp ha
    · exact .inl rfl
    · exact .inr (.inr ⟨ha, id⟩)
  | removeDomain =>
    obtain ⟨hne, ha⟩ := Dicts.Dict.mem_keys_erase.mp ha
    exact .inr (.inr ⟨ha, fun hd => Dicts.Dict.mem_keys_erase.mpr ⟨hne, hd⟩⟩)
  | _ => exact .inr (.inr ⟨ha, id⟩)

/-- While a domain is being removed nobody sets a release time for it. -/
theorem not_releasing_removed (hd : n.Disciplined) {task : TaskId} {d : String} {lock : LockId}
    (hpc : n.tasks.pcs[task]? = some (.cleanupGeneral d lock))
    (he : n.tasks.entitled Pc.region task (.cleanupGeneral d lock) = true)
    (hreported : ∀ pc ∈ n.tasks.pcs, ∀ p, pc.undecided? = some p → p.url.domain ≠ d)
    {u : TaskId} (hu : n.tasks.pcs[u]? = some pc) : pc.releasing? ≠ some d := by
  intro hreleasing
  unfold Pc.releasing? at hreleasing
  split at hreleasing
  · -- the put that set this domain up holds the general lock, and so does the cleanup
    have hput := hd.held u _ hu .general (by simp [Pc.inside])
    have hcleanup := Tasks.holder_of_entitled he (k := .general) (by simp [Pc.region])
    obtain rfl := Option.some.inj (hput.symm.trans hcleanup)
    rw [hpc] at hu
    cases hu
  · obtain ⟨p, hp, hdomain⟩ := Option.map_eq_some_iff.mp hreleasing
    exact hreported _ (List.mem_of_getElem? hu) p hp hdomain

theorem Node.Reportable.ran (h : n.Reportable) (hs : n.Disciplined) (hk : n.queue.Keyed) {task : TaskId}
    (hran : Ran lib n task reply pc a n') (hfirst : ReportedFirst n (.run task reply)) : n'.Reportable := by
  have hmem := List.mem_of_getElem? hran.at_pc
  constructor
  · intro p hp d hd
    rw [hran.queue]
    obtain ⟨u, hu⟩ := List.getElem?_of_mem hp
    obtain ⟨-, rfl⟩ | ⟨hne, hu⟩ | ⟨e, rfl⟩ := hran.pcs hu
    · obtain hqueued | hbefore := effect_releasing hk hran.effect hd
      · exact hqueued
      · obtain hqueued | ⟨-, lock, rfl⟩ := effect_stays hran.effect (h.releasing pc hmem d hbefore)
        · exact hqueued
        · cases hbefore
    · obtain hqueued | ⟨rfl, lock, rfl⟩ :=
        effect_stays hran.effect (h.releasing p (List.mem_of_getElem? hu) d hd)
      · exact hqueued
      · have hreported := hfirst task d lock rfl hran.at_pc
        exact absurd hd (not_releasing_removed hs hran.at_pc hran.entitled hreported hu)
    · cases hd
  · intro d hd
    rw [hran.queue] at hd ⊢
    obtain hreleasing | hqueued | ⟨hbefore, hstays⟩ := effect_dates hran.effect hd
    · obtain hqueued | ⟨-, lock, rfl⟩ := effect_stays hran.effect (h.releasing pc hmem d hreleasing)
      · exact hqueued
      · cases hreleasing
    · exact hqueued
    · exact hstays (h.releaseTimes d hbefore)

theorem Node.Reportable.spawn (h : n.Reportable) {new : List Pc} (hnew : ∀ p ∈ new, p.releasing? = none) :
    Node.Reportable { n with tasks := n.tasks.spawn new } where
  releasing := by
    intro pc hpc d hd
    obtain hpc | hpc := List.mem_append.mp hpc
    · exact h.releasing pc hpc d hd
    · rw [hnew pc hpc] at hd
      cases hd
  releaseTimes := h.releaseTimes

theorem Node.Reportable.step {action : Action} (h : n.Reportable) (hs : n.Disciplined) (hk : n.queue.Keyed)
    (hfirst : ReportedFirst n action) (hstep : n.step lib action = some n') : n'.Reportable := by
  cases action with
  | run task reply =>
    obtain ⟨pc, a, hran⟩ := runTask_ran hstep
    exact h.ran hs hk hran hfirst
  | tick now =>
    simp only [Node.step] at hstep
    split at hstep <;> cases hstep
    exact ⟨h.releasing, h.releaseTimes⟩
  | loop => cases hstep; exact h.spawn (by simp [Pc.releasing?, Pc.undecided?])
  | waitForDrain timeout =>
    simp only [Node.step] at hstep
    split at hstep <;> cases hstep
    exact h.spawn (by simp [Pc.releasing?, Pc.undecided?])
  | grant | drain | setBuckets | setReady => cases hstep; exact ⟨h.releasing, h.releaseTimes⟩

end

theorem Node.initial_reportable : Node.initial.Reportable where
  releasing := by intro pc hpc; cases hpc
  releaseTimes := by intro d hd; cases hd

theorem Node.Reportable.reportsReturn {n : Node} (h : n.Reportable) : n.ReportsReturn where
  returns p l f hpc := reportTest_ne_none (h.releasing _ hpc _ rfl) f
  releaseTimes := h.releaseTimes

/-- In a run in which a domain is removed only after the payloads handed out for
it were reported, every report returns and leaves no stray release time. -/
theorem reports_return (lib : Externals) (n : Node)
    (h : Reaches (Node.step lib) ReportedFirst Node.initial n) : n.ReportsReturn := by
  have hr := h.invariant (fun n => n.Reportable ∧ n.Disciplined ∧ n.queue.Keyed)
    ⟨Node.initial_reportable, Node.initial_disciplined, (Node.initial_sound : Node.initial.Sound lib).keyed⟩
    (fun s action s' hs hfirst hstep =>
      ⟨hs.1.step hs.2.1 hs.2.2 hfirst hstep, hs.2.1.step (step_stepped hstep), hs.2.2.step (step_stepped hstep)⟩)
  exact hr.1.reportsReturn

/-- A test that implies `ReportedFirst`: nothing is unreported during a removal. -/
def removedAlone (n : Node) : Action → Bool
  | .run task _ =>
    match n.tasks.pcs[task]? with
    | some (.cleanupGeneral _ _) => n.tasks.pcs.all (fun pc => pc.undecided?.isNone)
    | _ => true
  | _ => true

theorem reportedFirst_of_removedAlone (n : Node) (action : Action) (h : removedAlone n action = true) :
    ReportedFirst n action := by
  rintro task d l rfl hpc pc hmem p hp
  simp only [removedAlone, hpc] at h
  have hnone := List.all_eq_true.mp h pc hmem
  simp [hp] at hnone

/-- The only page of a site was fetched with a 200 and is about to be reported. -/
theorem reports_return_site : ∃ n, Reaches (Node.step site) ReportedFirst Node.initial n ∧
    .reporting ⟨⟨"https://site/1", "1", "site", 443⟩, 0⟩ 0 (.response 200 10) ∈ n.tasks.pcs ∧
    n.ReportsReturn := by
  obtain ⟨n, hn, hreporting⟩ := exists_reaches (Node.step site) Node.initial removedAlone
    reportedFirst_of_removedAlone
    [.setBuckets [⟨1, .idle, some "a", none, 0⟩], .loop, .run 0 .done, .run 0 .done,
      .run 0 (.domains []), .run 0 (.urls [page1]), .run 0 (.urls [page1]), .run 0 .done,
      .run 0 (.releaseTime none), .run 0 .done, .drain, .run 0 .done, .run 0 .done,
      .run 0 .done, .run 0 .done, .run 0 .done, .run 0 (.fetched (.response 200 10))]
    (fun n => .reporting ⟨⟨"https://site/1", "1", "site", 443⟩, 0⟩ 0 (.response 200 10) ∈ n.tasks.pcs)
    (by decide +kernel)
  exact ⟨n, hn, by simpa using hreporting, reports_return site n hn⟩

/-- While page 1 waits for `start_crawl`, page 2 is fetched and reported, which
empties the queue, and the cleanup removes the domain. Then page 1 is fetched. -/
def removedWhileHanded : List Action :=
  [.setBuckets [⟨1, .idle, some "a", none, 0⟩], .loop, .loop, .run 0 .done, .run 0 .done,
    .run 0 (.domains []), .run 0 (.urls [page1, page2]), .run 0 (.urls [page1, page2]), .run 0 .done,
    .run 0 (.releaseTime none), .run 0 .done, .run 0 .done,
    .run 0 .done, .run 0 .done, .run 0 (.domains []), .run 0 (.urls []), .run 0 .done, .run 0 .done,
    .tick 2, .run 1 .done, .run 1 .done, .run 1 (.domains []), .run 1 (.urls []), .run 1 .done,
    .run 1 .done,
    .run 1 .done, .run 1 .done, .run 1 .done, .run 1 (.fetched (.response 200 10)), .run 1 .done, .run 1 .done,
    .run 2 .done, .run 2 .done, .run 2 .done,
    .run 0 .done, .run 0 .done, .run 0 .done, .run 0 (.fetched (.response 200 10))]

/-- Both parts fail: the report of page 1 finds no queue, and it leaves a release
time behind. -/
theorem report_raises :
    (¬ ∀ n, Reaches (Node.step site) Free Node.initial n →
      ∀ p l f, .reporting p l f ∈ n.tasks.pcs → n.queue.reportTest p.url.domain f ≠ none) ∧
    ¬ ∀ n, Reaches (Node.step site) Free Node.initial n →
      ∀ d ∈ n.queue.releaseTimes.keys, d ∈ n.queue.queues.keys := by
  constructor
  · intro hall
    obtain ⟨n, hn, htest⟩ := exists_reaches_free (Node.step site) Node.initial removedWhileHanded
      (fun n => .reporting ⟨⟨"https://site/1", "1", "site", 443⟩, 0⟩ 0 (.response 200 10) ∈ n.tasks.pcs ∧
        n.queue.reportTest "site" (.response 200 10) = none) (by decide +kernel)
    have hstate : .reporting ⟨⟨"https://site/1", "1", "site", 443⟩, 0⟩ 0 (.response 200 10) ∈ n.tasks.pcs ∧
        n.queue.reportTest "site" (.response 200 10) = none := by simpa using htest
    exact hall n hn _ _ _ hstate.1 hstate.2
  · intro hall
    obtain ⟨n, hn, htest⟩ := exists_reaches_free (Node.step site) Node.initial
      (removedWhileHanded ++ [.run 0 .done])
      (fun n => "site" ∈ n.queue.releaseTimes.keys ∧ "site" ∉ n.queue.queues.keys) (by decide +kernel)
    have hstate : "site" ∈ n.queue.releaseTimes.keys ∧ "site" ∉ n.queue.queues.keys := by simpa using htest
    exact hstate.2 (hall n hn "site" hstate.1)

end Linksurf
