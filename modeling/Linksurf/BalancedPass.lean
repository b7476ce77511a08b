import Linksurf.Balancing

/-!
# Whole passes

An undisturbed pass, phase by phase: the reclaimed records, the assigned free
buckets, the moves over IDLE and then ACTIVE buckets, and the promotions. Loads
end at their targets, every mark takes one unit of excess away, and a second
pass finds nothing to assign or to move.
-/
namespace Linksurf

open Coroutine

section Passes

variable {env : Surroundings} {live ready : List WorkerId}

/-! ## The first half of a pass -/

/-- The session after the expired workers were deleted. -/
def Session.purged (env : Surroundings) (s : Session) : Session :=
  ⟨{ s.db with workers := s.db.workers.deleteExpiredWorkers env.now },
    (s.asked .now).log ++ [(.deleteExpiredWorkers env.now, s.db)]⟩

/-- The session in which a pass has read its workers and its first bucket list. -/
def Session.surveyed (env : Surroundings) (s : Session) : Session :=
  ((s.purged env).asked (.getLiveWorkers env.now)).asked .getBuckets

theorem Session.surveyed_marks (s : Session) : (s.surveyed env).marks = s.marks := by
  simp [Session.marks, Session.surveyed, Session.purged, Session.asked, Call.marks]

/-- The first half of a pass, phase by phase. -/
theorem run_allocate (henv : env.Undisturbed) (s : Session)
    (hready : readyIds (s.db.workers.getLiveWorkers env.now) ≠ []) :
    let workers := s.db.workers.getLiveWorkers env.now
    let reclaimed := (runPass env (reclaim (liveIds workers) (readyIds workers) s.db.buckets.records)
      (s.surveyed env)).2
    let buckets := reclaimed.db.buckets.records
    let assigned := runPass env (assignFree (readyIds workers)
      (targetCounts (readyIds workers) buckets.length) buckets (.ofBuckets (readyIds workers) buckets))
      (reclaimed.asked .getBuckets)
    runPass env allocate s = (some ⟨readyIds workers,
      targetCounts (readyIds workers) buckets.length, assigned.1⟩, assigned.2) := by
  intro workers reclaimed buckets assigned
  have hread : (s.purged env).db.execute (.getLiveWorkers env.now) = some (workers, (s.purged env).db) := by
    change some ((s.db.workers.deleteExpiredWorkers env.now).getLiveWorkers env.now, _) = _
    rw [Workers.live_deleteExpiredWorkers]
  simp only [allocate, Coro.perform_bind]
  rw [runPass_local henv rfl, runPass_execute henv rfl]
  change runPass env (.await (.getLiveWorkers env.now) _) (s.purged env) = _
  rw [runPass_read henv hread, runPass_read henv rfl, runPass_bind]
  change runPass env (if readyIds workers = [] then _ else _) reclaimed = _
  rw [if_neg hready, runPass_read henv rfl, runPass_bind]
  rfl

/-! ## What balancing asks of the stored records -/

/-- Every live worker is ready, and no handoff stored before the pass is stuck
or exceeds what its successor should own. -/
structure Balanceable (db : Database) (now : Time) : Prop where
  coherent : ∀ r ∈ db.buckets.records, Coherent r
  ready : ∀ w ∈ db.workers.getLiveWorkers now, w.status = .ready
  nonempty : db.workers.getLiveWorkers now ≠ []
  successors : ∀ r ∈ db.buckets.records, r.state = .draining →
    r.ownerId.any (· ∈ liveIds (db.workers.getLiveWorkers now)) →
    r.successorId.any (· ∈ liveIds (db.workers.getLiveWorkers now))
  capacity : ∀ w ∈ liveIds (db.workers.getLiveWorkers now),
    db.buckets.records.countP (fun r => r.state = .draining ∧
      r.ownerId.any (· ∈ liveIds (db.workers.getLiveWorkers now)) ∧
      effectiveOwner (readyIds (db.workers.getLiveWorkers now)) r = some w) ≤
    targetCounts (readyIds (db.workers.getLiveWorkers now)) db.buckets.records.length w

theorem readyIds_nodup (c : Workers) (now : Time) : (readyIds (c.getLiveWorkers now)).Nodup := by
  rw [readyIds, (List.perm_insertionSort _ _).nodup_iff]
  have hsub : ((c.getLiveWorkers now).filter (fun worker => worker.status = .ready)).Sublist c.records :=
    List.filter_sublist.trans List.filter_sublist
  exact c.nodup.sublist (hsub.map _)

theorem mem_readyIds {workers : List WorkerModel} {id : WorkerId} :
    id ∈ readyIds workers ↔ ∃ w ∈ workers, w.status = .ready ∧ w.id = id := by
  simp [readyIds, List.mem_insertionSort, and_assoc]

theorem mem_liveIds_of_ready {workers : List WorkerModel} (h : ∀ w ∈ workers, w.status = .ready)
    (id : WorkerId) : id ∈ liveIds workers ↔ id ∈ readyIds workers := by
  rw [mem_readyIds, liveIds, List.mem_map]
  constructor
  · rintro ⟨w, hw, he⟩; exact ⟨w, hw, h w hw, he⟩
  · rintro ⟨w, hw, -, he⟩; exact ⟨w, hw, he⟩

theorem readyIds_ne_nil {workers : List WorkerModel} (h : ∀ w ∈ workers, w.status = .ready)
    (hne : workers ≠ []) : readyIds workers ≠ [] := by
  obtain ⟨w, rest, rfl⟩ := List.exists_cons_of_ne_nil hne
  have hmem : w.id ∈ readyIds (w :: rest) := mem_readyIds.mpr ⟨w, by simp, h w (by simp), rfl⟩
  intro hnil
  rw [hnil] at hmem
  cases hmem

theorem total_targets {ready : List WorkerId} (hnodup : ready.Nodup) (hne : ready ≠ []) (n : Nat) :
    Loads.total ready.toFinset (targetCounts ready n) = n := by
  refine (Loads.total_congr (fun w hw => ?_)).trans (Loads.total_share hnodup hne n)
  rw [targetCounts, if_pos (List.mem_toFinset.mp hw), Loads.share]

/-- After reclaiming, a record is settled or free. -/
theorem reclaimed_settled {r : BucketModel} (hcoh : Coherent r)
    (hlive : ∀ id, id ∈ live ↔ id ∈ ready)
    (hsucc : r.state = .draining → r.ownerId.any (· ∈ live) → r.successorId.any (· ∈ live)) :
    Settled ready (reclaimedRecord live ready r) ∨ FreeRecord (reclaimedRecord live ready r) := by
  unfold reclaimedRecord
  split
  · rename_i hall
    cases ho : r.ownerId with
    | none => exact .inr ⟨hcoh.unassigned.mpr ho, ho⟩
    | some o =>
      have hlo : o ∈ live := by simpa [ho] using hall
      refine .inl ⟨fun h => ?_, ⟨o, (hlive o).mp hlo, ho⟩, fun hd => ?_⟩
      · rw [hcoh.unassigned.mp h] at ho; cases ho
      · obtain ⟨w, hw, hin⟩ := (Option.any_eq_true _ _).mp (hsucc hd (by simpa [ho] using hlo))
        exact ⟨w, (hlive w).mp (by simpa using hin), hw⟩
  · unfold heir
    split
    · rename_i hd
      obtain ⟨w, hw, hin⟩ := (Option.any_eq_true _ _).mp hd.2
      exact .inl ⟨by simp, ⟨w, by simpa using hin, hw⟩, by simp⟩
    · exact .inr ⟨rfl, rfl⟩

/-- Reclaiming keeps exactly the handoffs whose owner is live. -/
theorem reclaimed_reserved (live ready : List WorkerId) {r : BucketModel} (hcoh : Coherent r) (w : WorkerId) :
    ((reclaimedRecord live ready r).state = .draining ∧
      (reclaimedRecord live ready r).successorId = some w) ↔
    (r.state = .draining ∧ r.ownerId.any (· ∈ live) ∧ r.successorId = some w) := by
  unfold reclaimedRecord
  split
  · rename_i hall
    cases ho : r.ownerId with
    | none =>
      have hun := hcoh.unassigned.mpr ho
      simp [hun]
    | some o => simp_all
  · rename_i hall
    cases ho : r.ownerId with
    | none => simp [ho] at hall
    | some o => simp_all

/-- What the first half of a pass leaves to the second. -/
structure Allocated (db : Database) (now : Time) (plan : Plan) (s : Session) : Prop where
  readyIds : plan.readyIds = readyIds (db.workers.getLiveWorkers now)
  targets : plan.targets = targetCounts plan.readyIds db.buckets.records.length
  tracks : Tracks plan.readyIds s.db.buckets plan.balance
  moves : plan.balance.moves = 0
  settled : ∀ r ∈ s.db.buckets.records, Settled plan.readyIds r
  reserved : ∀ w ∈ plan.readyIds, reserved s.db.buckets w ≤ plan.targets w
  workers : s.db.workers = db.workers.deleteExpiredWorkers now
  length : s.db.buckets.records.length = db.buckets.records.length
  marks : s.marks = 0

/-- The handoffs left after reclaiming fit their successors' targets. -/
theorem Balanceable.reserved_le {db : Database} {now : Time} (h : Balanceable db now) {w : WorkerId}
    (hw : w ∈ liveIds (db.workers.getLiveWorkers now)) :
    db.buckets.records.countP (fun r => r.state = .draining ∧
      r.ownerId.any (· ∈ liveIds (db.workers.getLiveWorkers now)) ∧ r.successorId = some w) ≤
    targetCounts (readyIds (db.workers.getLiveWorkers now)) db.buckets.records.length w := by
  refine le_trans (List.countP_mono_left (fun r hr hp => ?_)) (h.capacity w hw)
  obtain ⟨hd, hlive, hs⟩ : r.state = .draining ∧
      r.ownerId.any (· ∈ liveIds (db.workers.getLiveWorkers now)) ∧ r.successorId = some w := by
    simpa using hp
  have hready := (mem_liveIds_of_ready h.ready w).mp hw
  simp [effectiveOwner, hd, hlive, hs, hready]

theorem run_allocate_balanceable (henv : env.Undisturbed) {db : Database}
    (h : Balanceable db env.now) :
    ∃ plan s, runPass env allocate ⟨db, []⟩ = (some plan, s) ∧ Allocated db env.now plan s := by
  have hready := readyIds_ne_nil h.ready h.nonempty
  have hlive := mem_liveIds_of_ready h.ready
  have hrun := run_allocate henv ⟨db, []⟩ hready
  generalize hworkers : db.workers.getLiveWorkers env.now = workers at *
  obtain ⟨hframe, hrecords⟩ := run_reclaim henv (liveIds workers) (readyIds workers)
    db.buckets.records (Session.surveyed env ⟨db, []⟩) (fun _ hr => hr) db.buckets.nodup
  generalize hs₁ : (runPass env (reclaim (liveIds workers) (readyIds workers) db.buckets.records)
    (Session.surveyed env ⟨db, []⟩)).2 = s₁ at *
  have hmap : s₁.db.buckets.records =
      db.buckets.records.map (reclaimedRecord (liveIds workers) (readyIds workers)) :=
    hrecords.trans (List.map_congr_left (fun r hr => if_pos hr))
  have hlength : s₁.db.buckets.records.length = db.buckets.records.length := by
    rw [hmap, List.length_map]
  have hall : ∀ r ∈ s₁.db.buckets.records,
      Settled (readyIds workers) r ∨ (FreeRecord r ∧ r ∈ s₁.db.buckets.records) := by
    intro r hr
    obtain ⟨x, hx, rfl⟩ := List.mem_map.mp (hmap ▸ hr)
    exact (reclaimed_settled (h.coherent x hx) hlive
      (fun hd ho => by simpa [hworkers] using h.successors x hx hd (by simpa [hworkers] using ho))).imp_right (⟨·, hr⟩)
  have hnodup : (readyIds workers).Nodup := hworkers ▸ readyIds_nodup db.workers env.now
  obtain ⟨b, s₂, hassign, hframe₂, htracks, hmoves, hsettled, hreserved, -⟩ :=
    run_assignFree henv (fun _ h => h.assigned) s₁.db.buckets.records (s₁.asked .getBuckets)
      (.ofBuckets (readyIds workers) s₁.db.buckets.records) (fun _ hr => hr) s₁.db.buckets.nodup
      (fun _ _ _ d hd => ⟨by simp, ⟨d, hd, rfl⟩, by simp⟩) hall
      (tracks_ofBuckets _ _) (total_targets hnodup hready s₁.db.buckets.records.length)
  refine ⟨_, s₂, hrun.trans (by rw [hs₁, hassign]), ?_⟩
  constructor
  case readyIds => rw [hworkers]
  case targets => simp only [hlength]
  case tracks => exact htracks
  case moves => exact hmoves
  case settled => exact hsettled
  case reserved =>
    intro w hw
    have hw' : w ∈ liveIds (db.workers.getLiveWorkers env.now) := hworkers ▸ (hlive w).mpr hw
    refine le_trans (le_of_eq ?_) ((h.reserved_le hw').trans (by rw [hworkers, hlength]))
    rw [hreserved w, hworkers]
    change s₁.db.buckets.records.countP _ = _
    rw [hmap, List.countP_map]
    refine List.countP_congr (fun r hr => ?_)
    simpa using reclaimed_reserved (liveIds workers) (readyIds workers) (h.coherent r hr) w
  case workers => rw [hframe₂.workers]; exact hframe.workers
  case length => rw [hframe₂.length]; exact hlength
  case marks =>
    rw [hframe₂.marks]
    rw [(s₁.frame_asked .getBuckets rfl).marks, hframe.marks, Session.surveyed_marks]
    rfl

/-! ## The second half of a pass -/

/-- No worker stays above its target: what it kept are handoffs towards it that
were stored before the move loop, and those fit its target. -/
theorem load_le_of_kept {c c' : Buckets} {w : WorkerId} (hsettled : ∀ r ∈ c'.records, Settled ready r)
    (hkept : ∀ r ∈ c'.records, effectiveOwner ready r = some w → r ∈ c.records ∧ ¬ r.state.held) :
    load ready c' w ≤ reserved c w := by
  rw [load, reserved, List.countP_eq_length_filter, List.countP_eq_length_filter]
  have hnodup : (c'.records.filter (fun r => effectiveOwner ready r = some w)).Nodup :=
    (List.Nodup.of_map _ c'.nodup).filter _
  refine (List.subperm_of_subset hnodup (fun r hr => ?_)).length_le
  obtain ⟨hr', hw⟩ : r ∈ c'.records ∧ effectiveOwner ready r = some w := by simpa using hr
  obtain ⟨hr, hheld⟩ := hkept r hr' hw
  have hs := hsettled r hr'
  have hdrain : r.state = .draining := by
    cases hst : r.state with
    | draining => rfl
    | unassigned => exact absurd hst hs.assigned
    | idle => simp [hst] at hheld
    | active => simp [hst] at hheld
  rw [hs.effectiveOwner_draining hdrain] at hw
  simp [hr, hdrain, hw]

theorem runPass_moveAll {moves : BucketMoves} {plan : Plan} {buckets : List BucketModel} {s s₁ : Session}
    {b₁ : Balance} (h : runPass env (moveBuckets plan.readyIds plan.targets (moves.bound buckets.length)
      .idle buckets plan.balance) s = (some b₁, s₁)) :
    runPass env (moveAll moves plan buckets) s =
      if moves.bound buckets.length ≤ b₁.moves then (some b₁, s₁)
      else runPass env (moveBuckets plan.readyIds plan.targets (moves.bound buckets.length)
        .active buckets b₁) s₁ := by
  rw [moveAll, runPass_bind, h]
  dsimp only
  split <;> rfl

theorem run_moveAll (henv : env.Undisturbed) {plan : Plan} {s : Session}
    (hsettled : ∀ r ∈ s.db.buckets.records, Settled plan.readyIds r)
    (htracks : Tracks plan.readyIds s.db.buckets plan.balance) (hmoves : plan.balance.moves = 0)
    (hreserved : ∀ w ∈ plan.readyIds, reserved s.db.buckets w ≤ plan.targets w)
    (htotal : Loads.total plan.readyIds.toFinset plan.targets = s.db.buckets.records.length) :
    ∃ b' s', runPass env (moveAll .all plan s.db.buckets.records) s = (some b', s') ∧
      Frame s s' (Loads.excess plan.readyIds.toFinset plan.targets (load plan.readyIds s.db.buckets)) ∧
      (∀ r ∈ s'.db.buckets.records, Settled plan.readyIds r) ∧
      ∀ w ∈ plan.readyIds, load plan.readyIds s'.db.buckets w = plan.targets w := by
  have hloads : ∀ w ∈ plan.readyIds.toFinset, plan.balance.loads w = load plan.readyIds s.db.buckets w :=
    fun w hw => htracks.loads w (List.mem_toFinset.mp hw)
  have hsum : Loads.total plan.readyIds.toFinset plan.balance.loads = s.db.buckets.records.length :=
    (Loads.total_congr hloads).trans (total_load_settled hsettled)
  have hexcess : Loads.excess plan.readyIds.toFinset plan.targets plan.balance.loads =
      Loads.excess plan.readyIds.toFinset plan.targets (load plan.readyIds s.db.buckets) := Loads.excess_congr hloads
  have hle : Loads.excess plan.readyIds.toFinset plan.targets plan.balance.loads ≤
      s.db.buckets.records.length := hsum ▸ Loads.excess_le_total
  -- all excess has been marked once nobody is above its target
  have hdone : ∀ {b : Balance} {s' : Session}, Frame s s' b.moves →
      Tracks plan.readyIds s'.db.buckets b → (∀ r ∈ s'.db.buckets.records, Settled plan.readyIds r) →
      b.moves + Loads.excess plan.readyIds.toFinset plan.targets b.loads =
        Loads.excess plan.readyIds.toFinset plan.targets plan.balance.loads →
      (∀ w ∈ plan.readyIds, b.loads w ≤ plan.targets w) →
      Frame s s' (Loads.excess plan.readyIds.toFinset plan.targets (load plan.readyIds s.db.buckets)) ∧
      (∀ r ∈ s'.db.buckets.records, Settled plan.readyIds r) ∧
      ∀ w ∈ plan.readyIds, load plan.readyIds s'.db.buckets w = plan.targets w := by
    intro b s' hframe ht hset hsame hno
    have hzero : Loads.excess plan.readyIds.toFinset plan.targets b.loads = 0 :=
      Loads.excess_eq_zero (fun w hw => hno w (List.mem_toFinset.mp hw))
    have hmarks : b.moves =
        Loads.excess plan.readyIds.toFinset plan.targets (load plan.readyIds s.db.buckets) := by omega
    refine ⟨hmarks ▸ hframe, hset, fun w hw => ?_⟩
    refine Loads.eq_targets (R := plan.readyIds.toFinset) ?_ (fun v hv => ?_) w (List.mem_toFinset.mpr hw)
    · rw [total_load_settled hset, hframe.length, htotal]
    · rw [← ht.loads v (List.mem_toFinset.mp hv)]
      exact hno v (List.mem_toFinset.mp hv)
  obtain ⟨b₁, s₁, hrun₁, hidle⟩ := run_moveBuckets henv plan.targets s.db.buckets.records.length held_idle
    s.db.buckets.records s plan.balance (fun _ hr _ => hr) (fun _ hr => List.mem_map_of_mem hr)
    s.db.buckets.nodup hsettled htracks (hsum.trans htotal.symm) (by omega)
  have hex₁ := hidle.budget
  rw [hmoves, Nat.zero_add] at hex₁
  have hframe₁ := hidle.frame
  rw [hmoves, Nat.sub_zero] at hframe₁
  rw [runPass_moveAll hrun₁]
  change ∃ b' s', (if s.db.buckets.records.length ≤ b₁.moves then _ else _) = _ ∧ _
  by_cases hfull : s.db.buckets.records.length ≤ b₁.moves
  · have hzero : Loads.excess plan.readyIds.toFinset plan.targets b₁.loads = 0 := by omega
    rw [if_pos hfull]
    exact ⟨b₁, s₁, rfl, hdone hframe₁ hidle.tracks hidle.settled hex₁
      (fun w hw => Loads.le_of_excess_eq_zero hzero (List.mem_toFinset.mpr hw))⟩
  · rw [if_neg hfull]
    obtain ⟨b₂, s₂, hrun₂, hactive⟩ := run_moveBuckets henv plan.targets s.db.buckets.records.length held_active
      s.db.buckets.records s₁ b₁ (fun r hr hst => hidle.others r hr (by simp [hst]))
      (fun r hr => hframe₁.ids ▸ List.mem_map_of_mem hr) s.db.buckets.nodup hidle.settled hidle.tracks
      (hidle.total.trans (hsum.trans htotal.symm)) (by omega)
    have hex₂ := hactive.budget
    have hle₂ := hactive.moves_le
    have hmarks : b₁.moves + (b₂.moves - b₁.moves) = b₂.moves := by omega
    refine ⟨b₂, s₂, hrun₂, hdone (hmarks ▸ hframe₁.trans hactive.frame) hactive.tracks hactive.settled (by omega) ?_⟩
    intro w hw
    by_contra hover
    obtain ⟨hover₁, hkept₂⟩ := hactive.kept w hw (not_le.mp hover)
    obtain ⟨-, hkept₁⟩ := hidle.kept w hw hover₁
    refine hover ?_
    rw [hactive.tracks.loads w hw]
    refine (load_le_of_kept hactive.settled (fun r hr hrw => ?_)).trans (hreserved w hw)
    obtain ⟨hr₁, hnotActive⟩ := hkept₂ r hr hrw
    obtain ⟨hr₀, hnotIdle⟩ := hkept₁ r hr₁ hrw
    exact ⟨hr₀, fun hheld => hheld.elim (fun h => hnotIdle h hr₀) (fun h => hnotActive h hr₀)⟩

theorem runPass_promoteLocal (henv : env.Undisturbed) (self : WorkerId) (buckets : List BucketModel)
    (s : Session) : runPass env (promoteLocal self buckets) s =
      if env.ready then runPass env (promoteDrained self buckets env.drained)
        ((s.asked .backQueueReady).asked .drainedBuckets)
      else ((), s.asked .backQueueReady) := by
  simp only [promoteLocal, Coro.perform_bind]
  rw [runPass_local henv rfl]
  change runPass env (if env.ready then _ else _) _ = _
  split
  · rw [runPass_local henv rfl]; rfl
  · rfl

theorem run_promoteLocal (henv : env.Undisturbed) (self : WorkerId) (buckets : List BucketModel)
    (s : Session) (hall : ∀ r ∈ s.db.buckets.records, Settled ready r) :
    Frame s (runPass env (promoteLocal self buckets) s).2 0 ∧
    (∀ r ∈ (runPass env (promoteLocal self buckets) s).2.db.buckets.records, Settled ready r) ∧
    ∀ w, load ready (runPass env (promoteLocal self buckets) s).2.db.buckets w =
      load ready s.db.buckets w := by
  rw [runPass_promoteLocal henv]
  split
  · obtain ⟨hframe, hset, hload⟩ := run_promoteDrained henv self buckets env.drained
      ((s.asked .backQueueReady).asked .drainedBuckets) hall
    have hasked := (s.frame_asked .backQueueReady rfl).trans
      ((s.asked .backQueueReady).frame_asked .drainedBuckets rfl)
    exact ⟨hasked.trans hframe, hset, hload⟩
  · exact ⟨s.frame_asked .backQueueReady rfl, hall, fun _ => rfl⟩

theorem runPass_reconcile (henv : env.Undisturbed) {moves : BucketMoves} {self : WorkerId}
    {s s₁ s₂ : Session} {plan : Plan} {b : Balance} (h₁ : runPass env allocate s = (some plan, s₁))
    (h₂ : runPass env (moveAll moves plan s₁.db.buckets.records) (s₁.asked .getBuckets) = (some b, s₂)) :
    runPass env (reconcile moves self) s =
      (some (), (runPass env (promoteLocal self s₁.db.buckets.records) s₂).2) := by
  rw [reconcile, runPass_bind, h₁]
  simp only [Coro.perform_bind]
  rw [runPass_read henv rfl, runPass_bind, h₂]
  dsimp only
  rw [runPass_bind]
  rfl

/-! ## A second pass -/

/-- The call neither assigns nor marks. -/
def Call.Quiet (call : Call) : Prop := call.assigns = false ∧ call.marks = false

theorem issues_promoteDrained (self : WorkerId) (buckets : List BucketModel) (ids : List Nat) :
    (promoteDrained self buckets ids).Issues (fun _ _ => True) Call.Quiet (fun _ => True) := by
  induction ids with
  | nil => exact trivial
  | cons id rest ih =>
    cases hfind : (buckets.find? (fun bucket => bucket.id = id)).bind (·.successorId) with
    | none => rw [promoteDrained, hfind]; exact ih
    | some successor =>
      rw [promoteDrained_cons hfind]
      exact ⟨⟨rfl, rfl⟩, fun _ _ => ih⟩

theorem issues_promoteLocal (self : WorkerId) (buckets : List BucketModel) :
    (promoteLocal self buckets).Issues (fun _ _ => True) Call.Quiet (fun _ => True) := by
  simp only [promoteLocal, Coro.perform_bind]
  refine ⟨⟨rfl, rfl⟩, fun r _ => ?_⟩
  dsimp only
  split
  · exact ⟨⟨rfl, rfl⟩, fun ids _ => issues_promoteDrained self buckets ids⟩
  · exact trivial

theorem moveAll_eq_ret (moves : BucketMoves) (plan : Plan) (buckets : List BucketModel)
    (h : ∀ r ∈ buckets, ∃ w, plan.balance.effectiveOwner r.id = some (some w) ∧
      plan.balance.loads w ≤ plan.targets w) :
    moveAll moves plan buckets = .ret (some plan.balance) := by
  rw [moveAll, moveBuckets_eq_ret h]
  dsimp only [Coro.ret_bind]
  split
  · rfl
  · exact moveBuckets_eq_ret h

/-- Balanced records leave a pass nothing to reclaim, assign or move. -/
theorem reconcile_quiet (henv : env.Undisturbed) (self : WorkerId) (ready : List WorkerId) {db : Database}
    (hready : readyIds (db.workers.getLiveWorkers env.now) = ready) (hne : ready ≠ [])
    (hlive : ∀ id ∈ ready, id ∈ liveIds (db.workers.getLiveWorkers env.now))
    (hsettled : ∀ r ∈ db.buckets.records, Settled ready r)
    (hloads : ∀ w ∈ ready, load ready db.buckets w = targetCounts ready db.buckets.records.length w) :
    ∀ e ∈ (runPass env (reconcile .all self) ⟨db, []⟩).2.log, e.1.Quiet := by
  have hallocate := run_allocate henv ⟨db, []⟩ (by rw [hready]; exact hne)
  have hreclaim : reclaim (liveIds (db.workers.getLiveWorkers env.now)) ready db.buckets.records = .ret () := by
    refine reclaim_eq_ret (fun r hr => ?_)
    obtain ⟨o, ho, he⟩ := (hsettled r hr).owner
    simp [he, hlive o ho]
  have hassign : ∀ targets b, assignFree ready targets db.buckets.records b = .ret b :=
    fun targets b => assignFree_eq_ret b (fun r hr => (hsettled r hr).assigned)
  simp only [hready, hreclaim, runPass_ret] at hallocate
  change runPass env allocate ⟨db, []⟩ = (some ⟨ready, targetCounts ready db.buckets.records.length,
    (runPass env (assignFree ready _ db.buckets.records _) _).1⟩,
    (runPass env (assignFree ready _ db.buckets.records _) _).2) at hallocate
  simp only [hassign, runPass_ret] at hallocate
  have htracks := tracks_ofBuckets ready db.buckets
  have hmove := moveAll_eq_ret .all ⟨ready, targetCounts ready db.buckets.records.length,
    .ofBuckets ready db.buckets.records⟩ db.buckets.records (fun r hr => by
      obtain ⟨w, hw, he⟩ := (hsettled r hr).effectiveOwner_mem
      refine ⟨w, ?_, ?_⟩
      · rw [htracks.known, Buckets.get?_of_mem hr, Option.map_some, he]
      · exact le_of_eq ((htracks.loads w hw).trans (hloads w hw)))
  rw [runPass_reconcile henv hallocate
    (congrArg (fun c => runPass env c _) hmove)]
  intro e he
  refine (log_of_issues env (issues_promoteLocal self db.buckets.records) _ e he).elim (fun h => ?_) id
  have hreads : e.1 ∈ [Call.now, .deleteExpiredWorkers env.now, .getLiveWorkers env.now, .getBuckets] := by
    simp only [Session.asked, Session.surveyed, Session.purged, List.mem_append, List.mem_singleton,
      List.not_mem_nil, false_or] at h
    rcases h with ((((rfl | rfl) | rfl) | rfl) | rfl) | rfl <;> simp
  simp only [List.mem_cons, List.not_mem_nil, or_false] at hreads
  rcases hreads with h | h | h | h <;> rw [h] <;> exact ⟨rfl, rfl⟩

/-! ## The balancing result -/

/-- An undisturbed pass by any worker brings every ready worker to its target
with one mark per unit of excess, and the next pass changes no assignment. -/
theorem reconcile_balances (henv : env.Undisturbed) (self : WorkerId) (db : Database)
    (h : Balanceable db env.now) :
    let ready := readyIds (db.workers.getLiveWorkers env.now)
    let targets := targetCounts ready db.buckets.records.length
    let assigned := (runPass env allocate ⟨db, []⟩).2
    let result := runPass env (reconcile .all self) ⟨db, []⟩
    result.1 = some () ∧
    (∀ w ∈ ready, load ready result.2.db.buckets w = targets w) ∧
    Loads.total ready.toFinset targets = db.buckets.records.length ∧
    (∀ v ∈ ready, ∀ w ∈ ready, targets v ≤ targets w + 1) ∧
    result.2.marks = Loads.excess ready.toFinset targets (load ready assigned.db.buckets) ∧
    ∀ (env' : Surroundings) (self' : WorkerId), env'.Undisturbed →
      result.2.db.workers.getLiveWorkers env'.now = db.workers.getLiveWorkers env.now →
      ∀ e ∈ (runPass env' (reconcile .all self') ⟨result.2.db, []⟩).2.log,
        e.1.assigns = false ∧ e.1.marks = false := by
  intro ready targets assigned result
  have hne : ready ≠ [] := readyIds_ne_nil h.ready h.nonempty
  have htotal := total_targets (readyIds_nodup db.workers env.now) hne db.buckets.records.length
  obtain ⟨plan, s₁, hallocate, ha⟩ := run_allocate_balanceable henv h
  have htargets : plan.targets = targets := by rw [ha.targets, ha.readyIds]
  obtain ⟨b, s₂, hmove, hframe₂, hsettled₂, hloads₂⟩ := run_moveAll henv (s := s₁.asked .getBuckets)
    ha.settled ha.tracks ha.moves ha.reserved (by
      rw [htargets, ha.readyIds]
      exact htotal.trans ha.length.symm)
  obtain ⟨hframe₃, hsettled₃, hloads₃⟩ := run_promoteLocal henv self s₁.db.buckets.records s₂ hsettled₂
  have hrun : result = (some (), _) := runPass_reconcile henv hallocate hmove
  rw [ha.readyIds] at hframe₂ hsettled₃ hloads₂ hloads₃
  rw [htargets] at hframe₂ hloads₂
  have hassigned : assigned = s₁ := congrArg Prod.snd hallocate
  have hlength : result.2.db.buckets.records.length = db.buckets.records.length := by
    rw [hrun, hframe₃.length, hframe₂.length]; exact ha.length
  have hfinal : ∀ w ∈ ready, load ready result.2.db.buckets w = targets w := by
    intro w hw
    rw [hrun]
    exact (hloads₃ w).trans (hloads₂ w hw)
  refine ⟨by rw [hrun], hfinal, htotal, fun v hv w hw => ?_, ?_, ?_⟩
  · have hshare := Loads.share_le_succ ready db.buckets.records.length v w
    simpa [targets, targetCounts, Loads.share, hv, hw] using hshare
  · rw [hrun, hassigned, hframe₃.marks, hframe₂.marks, (s₁.frame_asked .getBuckets rfl).marks, ha.marks]
    simp only [Nat.zero_add, Nat.add_zero]
    rfl
  · intro env' self' henv' hworkers
    refine reconcile_quiet henv' self' ready (by rw [hworkers]) hne (fun id hid => ?_) ?_ ?_
    · rw [hworkers]
      exact (mem_liveIds_of_ready h.ready id).mpr hid
    · rw [hrun]; exact hsettled₃
    · rw [hlength]; exact hfinal

end Passes

/-- Two ready workers, one of which owns all assigned buckets. -/
def lopsided : Database where
  buckets := ⟨[⟨1, .idle, some "a", none, 1⟩, ⟨2, .active, some "a", none, 1⟩,
    ⟨3, .idle, some "a", none, 1⟩, ⟨4, .unassigned, none, none, 0⟩], by decide⟩
  workers := ⟨[⟨"a", .ready, 100⟩, ⟨"b", .ready, 100⟩], by decide⟩

theorem lopsided_balanceable : Balanceable lopsided 0 where
  coherent := by
    intro r hr
    simp only [lopsided, List.mem_cons, List.not_mem_nil, or_false] at hr
    rcases hr with rfl | rfl | rfl | rfl <;> exact ⟨by simp, by simp⟩
  ready := by decide +kernel
  nonempty := by decide +kernel
  successors := by decide +kernel
  capacity := by decide +kernel

theorem reconcile_balances_lopsided :
    (runPass ⟨0, true, [], fun _ db => db⟩ (reconcile .all "a") ⟨lopsided, []⟩).1 = some () ∧
    ∀ w ∈ readyIds (lopsided.workers.getLiveWorkers 0),
      load (readyIds (lopsided.workers.getLiveWorkers 0))
        (runPass ⟨0, true, [], fun _ db => db⟩ (reconcile .all "a") ⟨lopsided, []⟩).2.db.buckets w =
      targetCounts (readyIds (lopsided.workers.getLiveWorkers 0)) 4 w :=
  have h := @reconcile_balances ⟨0, true, [], fun _ db => db⟩ rfl "a" lopsided lopsided_balanceable
  ⟨h.1, h.2.1⟩

end Linksurf
