import Linksurf.BalancedPass
import Linksurf.PassContract

/-!
# Passes beside workers that shut down

A live worker that is not ready keeps its buckets: it has neither a load nor a
target, so nothing is moved away from it, and only the records of lost owners
and free buckets are given to the ready workers.
-/
namespace Linksurf

open Coroutine

/-- A property of the stored records kept by every operation a coroutine can
issue holds at the end of its run. -/
theorem run_keeps {env : Surroundings} (henv : env.Undisturbed) {Allowed : Call → Prop} {I : Buckets → Prop}
    (hI : ∀ (db : Database) (call : Call) reply db', Allowed call → db.execute call = some (reply, db') →
      I db.buckets → I db'.buckets)
    {α : Type} {Q : α → Prop} {c : Async α} (hc : c.Issues (fun _ _ => True) Allowed Q) {s : Session}
    (h : I s.db.buckets) : I (runPass env c s).2.db.buckets ∧ Q (runPass env c s).1 := by
  induction c generalizing s with
  | ret a => exact ⟨h, hc⟩
  | await call k ih =>
    cases he : s.db.execute call with
    | none =>
      rw [runPass_local henv he]
      exact ih _ (hc.2 _ trivial) h
    | some served =>
      obtain ⟨reply, db⟩ := served
      rw [runPass_execute henv he]
      exact ih reply (hc.2 reply trivial) (hI s.db call reply db hc.1 he h)

section Issued

variable {ready : List WorkerId} {targets : WorkerId → Nat}

/-- The loads are those of ready workers. -/
def Balance.OnlyReady (ready : List WorkerId) (b : Balance) : Prop := ∀ w, w ∉ ready → b.loads w = 0

theorem onlyReady_ofBuckets (ready : List WorkerId) (buckets : List BucketModel) :
    (Balance.ofBuckets ready buckets).OnlyReady ready := by
  intro w hw
  simp [Balance.ofBuckets, hw]

theorem Balance.OnlyReady.give {b : Balance} {d : WorkerId} (h : b.OnlyReady ready) (hd : d ∈ ready) (bucket : Nat) :
    (b.give bucket d).OnlyReady ready := by
  intro w hw
  have hwd : w ≠ d := fun he => hw (he ▸ hd)
  exact (Function.update_of_ne hwd ..).trans (h w hw)

theorem Balance.OnlyReady.move {b : Balance} {s d : WorkerId} (h : b.OnlyReady ready) (hs : s ∈ ready) (hd : d ∈ ready)
    (bucket : Nat) : (b.move bucket s d).OnlyReady ready := by
  intro w hw
  have hwd : w ≠ d := fun he => hw (he ▸ hd)
  have hws : w ≠ s := fun he => hw (he ▸ hs)
  exact (Loads.move_other hws hwd).trans (h w hw)

/-- The writes after the free-bucket loop hand over buckets of ready workers to
ready workers, or promote. -/
def Call.Hands (ready : List WorkerId) : Call → Prop
  | .setBucketAssignment _ _ _ | .syncOwnedBucketStates _ _ => False
  | .markBucketDraining _ source d => source ∈ ready ∧ d ∈ ready
  | _ => True

theorem issues_moveBuckets {maxMoves : Nat} {state : BucketState} (buckets : List BucketModel) {b : Balance}
    (hb : b.OnlyReady ready) :
    (moveBuckets ready targets maxMoves state buckets b).Issues (fun _ _ => True) (Call.Hands ready)
      (fun result => ∀ b, result = some b → b.OnlyReady ready) := by
  have hret {b : Balance} (hb : b.OnlyReady ready) : ∀ b', some b = some b' → b'.OnlyReady ready := by
    intro b' he
    exact Option.some.inj he ▸ hb
  induction buckets generalizing b with
  | nil => exact hret hb
  | cons bucket rest ih =>
    rw [moveBuckets]
    split
    · exact hret hb
    · split
      · intro b' he
        cases he
      · exact ih hb
      · rename_i source _
        split
        · exact ih hb
        · rename_i hover
          split
          · exact hret hb
          · rename_i d hd
            have hsource : source ∈ ready := by
              by_contra hw
              exact hover (.inr (by rw [hb source hw]; exact Nat.zero_le _))
            refine ⟨⟨hsource, (receiver_spec hd).1⟩, fun marked _ => ?_⟩
            cases marked with
            | false => exact ih hb
            | true => exact ih (hb.move hsource (receiver_spec hd).1 bucket.id)

theorem issues_moveAll {moves : BucketMoves} {plan : Plan} (buckets : List BucketModel)
    (hb : plan.balance.OnlyReady plan.readyIds) :
    (moveAll moves plan buckets).Issues (fun _ _ => True) (Call.Hands plan.readyIds) (fun _ => True) := by
  apply Coro.issues_bind (issues_moveBuckets buckets hb)
  intro result hresult
  cases result with
  | none => trivial
  | some b =>
    dsimp only
    split
    · trivial
    · exact Coro.issues_mono (issues_moveBuckets buckets (hresult b rfl)) (fun _ _ => trivial)

theorem issues_promotions (self : WorkerId) (buckets : List BucketModel) (ids : List Nat) :
    (promoteDrained self buckets ids).Issues (fun _ _ => True) (Call.Hands ready) (fun _ => True) := by
  induction ids with
  | nil => trivial
  | cons id rest ih =>
    rw [promoteDrained]
    split
    · exact ih
    · exact ⟨trivial, fun _ _ => ih⟩

theorem issues_promoteLocal_hands (self : WorkerId) (buckets : List BucketModel) :
    (promoteLocal self buckets).Issues (fun _ _ => True) (Call.Hands ready) (fun _ => True) := by
  refine ⟨trivial, fun backQueueReady _ => ?_⟩
  cases backQueueReady with
  | false => trivial
  | true => exact ⟨trivial, fun ids _ => issues_promotions self buckets ids⟩

theorem issues_rebalance {moves : BucketMoves} {self : WorkerId} {plan : Plan}
    (hb : plan.balance.OnlyReady plan.readyIds) :
    (rebalance moves self (some plan)).Issues (fun _ _ => True) (Call.Hands plan.readyIds) (fun _ => True) := by
  refine ⟨trivial, fun buckets _ => ?_⟩
  change Coro.Issues _ _ _ (moveAll moves plan buckets >>= _)
  apply Coro.issues_bind (issues_moveAll buckets hb)
  intro result _
  cases result with
  | none => trivial
  | some b =>
    change Coro.Issues _ _ _ (promoteLocal self buckets >>= _)
    refine Coro.issues_bind (issues_promoteLocal_hands self buckets) (fun _ _ => trivial)

end Issued

/-! ## What handing over keeps -/

/-- Kept by the writes after the free-bucket loop. -/
structure Handed (ready : List WorkerId) (Kept : BucketModel → Prop) : Prop where
  marked : ∀ r source d, Kept r → source ∈ ready → d ∈ ready → r.ownerId = some source → r.state.held →
    Kept { r with state := .draining, successorId := some d, revision := r.revision + 1 }
  promoted : ∀ r o d, Kept r → r.ownerId = some o → r.successorId = some d → r.state = .draining →
    Kept { r with ownerId := some d, successorId := none, state := .idle, revision := r.revision + 1 }

/-- Every record is kept, and none was added or removed. -/
structure AllKept (Kept : BucketModel → Prop) (ids : List Nat) (c : Buckets) : Prop where
  kept : ∀ r ∈ c.records, Kept r
  ids : c.records.map (·.id) = ids

theorem allKept_updateOne {Kept : BucketModel → Prop} {ids : List Nat} {c : Buckets} (h : AllKept Kept ids c)
    {id : Nat} {filter : BucketModel → Bool} {update : BucketModel → BucketModel}
    (hu : ∀ r, r.id = id → filter r = true → Kept r → Kept { update r with id := r.id }) :
    AllKept Kept ids (c.updateOne id filter update) where
  kept := by
    intro r' hr'
    obtain ⟨r, hr, rfl⟩ := List.mem_map.mp hr'
    unfold Buckets.rewriteOne
    split
    · rename_i hmatch
      obtain ⟨rfl, hf⟩ := hmatch
      exact hu r rfl hf (h.kept r hr)
    · exact h.kept r hr
  ids := (Buckets.updateOne_ids ..).trans h.ids

theorem Handed.execute {ready : List WorkerId} {Kept : BucketModel → Prop} {ids : List Nat} (h : Handed ready Kept)
    (db : Database) (call : Call) (reply : call.Reply) (db' : Database) (hcall : Call.Hands ready call)
    (he : db.execute call = some (reply, db')) (hk : AllKept Kept ids db.buckets) : AllKept Kept ids db'.buckets := by
  cases call with
  | markBucketDraining bucket source d =>
    cases he
    apply allKept_updateOne hk
    intro r _ hf hr
    have hf' : r.ownerId = some source ∧ r.state.held := by simpa [Buckets.canDrain] using hf
    exact h.marked r source d hr hcall.1 hcall.2 hf'.1 hf'.2
  | promoteDrainedBucket bucket o d =>
    cases he
    apply allKept_updateOne hk
    intro r _ hf hr
    obtain ⟨howner, hsuccessor, hstate⟩ := Buckets.canPromote_iff.mp hf
    exact h.promoted r o d hr howner hsuccessor hstate
  | setBucketAssignment | syncOwnedBucketStates => exact hcall.elim
  | deleteExpiredWorkers | getLiveWorkers | getBuckets | getOwnedBuckets | deleteWorker =>
    cases he
    exact hk
  | now | acquireLock | releaseLock | backQueueReady | bucketStates | drainedBuckets | setBuckets => cases he

section Passes

variable {env : Surroundings}

/-- The pass after the free-bucket loop. -/
theorem run_rebalance (henv : env.Undisturbed) (moves : BucketMoves) (self : WorkerId) {plan : Plan}
    {Kept : BucketModel → Prop} {ids : List Nat} (hb : plan.balance.OnlyReady plan.readyIds)
    (h : Handed plan.readyIds Kept) {s : Session} (hk : AllKept Kept ids s.db.buckets) :
    AllKept Kept ids (runPass env (rebalance moves self (some plan)) s).2.db.buckets :=
  (run_keeps henv h.execute (issues_rebalance hb) hk).1

theorem runPass_reconcile_eq {moves : BucketMoves} {self : WorkerId} {s s₁ : Session} {plan : Plan}
    (h : runPass env allocate s = (some plan, s₁)) :
    runPass env (reconcile moves self) s = runPass env (rebalance moves self (some plan)) s₁ := by
  change runPass env (allocate >>= rebalance moves self) s = _
  rw [runPass_bind, h]

/-- The stored records after the first loop. -/
theorem records_reclaim (henv : env.Undisturbed) (live ready : List WorkerId) (db : Database) :
    (runPass env (reclaim live ready db.buckets.records) (Session.surveyed env ⟨db, []⟩)).2.db.buckets.records =
      db.buckets.records.map (reclaimedRecord live ready) := by
  obtain ⟨-, hrecords⟩ := run_reclaim henv live ready db.buckets.records (Session.surveyed env ⟨db, []⟩)
    (fun _ hr => hr) db.buckets.nodup
  exact hrecords.trans (List.map_congr_left (fun r hr => if_pos hr))

/-! ## Buckets that need an owner -/

/-- The bucket had an owner that is lost. -/
def Lost (live : List WorkerId) (c : Buckets) (id : Nat) : Prop :=
  ∃ r ∈ c.records, r.id = id ∧ ¬ r.ownerId.all (· ∈ live)

/-- Assigned, and where the owner was lost to a live worker and for it alone. -/
structure Served (live ready : List WorkerId) (c : Buckets) (r : BucketModel) : Prop where
  assigned : r.state ≠ .unassigned
  owner : Lost live c r.id → ∃ o ∈ live, r.ownerId = some o
  successor : Lost live c r.id → ∀ d, r.successorId = some d → d ∈ ready

theorem handed_served {live ready : List WorkerId} (hsub : ∀ d ∈ ready, d ∈ live) (c : Buckets) :
    Handed ready (Served live ready c) where
  marked r source d h _ hd _ _ :=
    ⟨by simp, h.owner, fun _ s hs => Option.some.inj hs ▸ hd⟩
  promoted r o d h _ hsuccessor _ :=
    ⟨by simp, fun hlost => ⟨d, hsub d (h.successor hlost d hsuccessor), rfl⟩, fun _ s hs => by cases hs⟩

/-- After reclaiming, a record is served or free. -/
theorem reclaimed_served {live ready : List WorkerId} (hsub : ∀ d ∈ ready, d ∈ live) {c : Buckets} {r : BucketModel}
    (hr : r ∈ c.records) (hwf : r.state = .unassigned ↔ r.ownerId = none) :
    Served live ready c (reclaimedRecord live ready r) ∨ FreeRecord (reclaimedRecord live ready r) := by
  unfold reclaimedRecord
  split
  · rename_i hlive
    have hkept : ¬ Lost live c r.id := by
      rintro ⟨r', hr', hid, hlost⟩
      exact hlost (Buckets.eq_of_id_eq hr' hr hid ▸ hlive)
    cases ho : r.ownerId with
    | none => exact .inr ⟨hwf.mpr ho, ho⟩
    | some o =>
      refine .inl ⟨?_, fun hlost => absurd hlost hkept, fun hlost => absurd hlost hkept⟩
      intro hstate
      rw [hwf.mp hstate] at ho
      cases ho
  · unfold heir
    split
    · rename_i hd
      obtain ⟨d, hsuccessor, hready⟩ := (Option.any_eq_true _ _).mp hd.2
      exact .inl ⟨by simp, fun _ => ⟨d, hsub d (by simpa using hready), hsuccessor⟩, fun _ _ hs => by cases hs⟩
    · exact .inr ⟨rfl, rfl⟩

/-- The first half of a pass serves every bucket. -/
theorem run_allocate_served (henv : env.Undisturbed) {db : Database}
    (hwf : ∀ r ∈ db.buckets.records, r.state = .unassigned ↔ r.ownerId = none)
    (hready : readyIds (db.workers.getLiveWorkers env.now) ≠ []) :
    ∃ plan s, runPass env allocate ⟨db, []⟩ = (some plan, s) ∧
      plan.readyIds = readyIds (db.workers.getLiveWorkers env.now) ∧ plan.balance.OnlyReady plan.readyIds ∧
      AllKept (Served (liveIds (db.workers.getLiveWorkers env.now)) plan.readyIds db.buckets)
        (db.buckets.records.map (·.id)) s.db.buckets := by
  have hrun := run_allocate henv ⟨db, []⟩ hready
  have hsub := readyIds_subset (db.workers.getLiveWorkers env.now)
  have hnodup := readyIds_nodup db.workers env.now
  generalize db.workers.getLiveWorkers env.now = workers at *
  have hrecords := records_reclaim henv (liveIds workers) (readyIds workers) db
  generalize hs₁ : (runPass env (reclaim (liveIds workers) (readyIds workers) db.buckets.records)
    (Session.surveyed env ⟨db, []⟩)).2 = s₁ at *
  have hall : ∀ r ∈ s₁.db.buckets.records, Served (liveIds workers) (readyIds workers) db.buckets r ∨
      (FreeRecord r ∧ r ∈ s₁.db.buckets.records) := by
    intro r hr
    obtain ⟨x, hx, rfl⟩ := List.mem_map.mp (hrecords ▸ hr)
    exact (reclaimed_served hsub hx (hwf x hx)).imp_right (⟨·, hr⟩)
  obtain ⟨b, s₂, hassign, hframe, -, -, hserved, -, hloads⟩ :=
    run_assignFree henv (fun _ h => h.assigned) s₁.db.buckets.records (s₁.asked .getBuckets)
      (.ofBuckets (readyIds workers) s₁.db.buckets.records) (fun _ hr => hr) s₁.db.buckets.nodup
      (fun _ _ _ d hd => ⟨by simp, fun _ => ⟨d, hsub d hd, rfl⟩, fun _ _ hs => by cases hs⟩) hall
      (tracks_ofBuckets _ _) (total_targets hnodup hready s₁.db.buckets.records.length)
  refine ⟨_, s₂, hrun.trans (by rw [hs₁, hassign]), rfl, ?_, hserved, ?_⟩
  · intro w hw
    exact (hloads w hw).trans (onlyReady_ofBuckets _ _ w hw)
  · rw [hframe.ids]
    change s₁.db.buckets.records.map (·.id) = _
    rw [hrecords, List.map_map]
    exact List.map_congr_left (fun r _ => reclaimedRecord_id r)

/-- A pass with a ready worker leaves no bucket unassigned and none with an owner
that is lost, whatever the other live workers keep. -/
theorem reconcile_serves (henv : env.Undisturbed) (moves : BucketMoves) (self : WorkerId) (db : Database)
    (hwf : ∀ r ∈ db.buckets.records, r.state = .unassigned ↔ r.ownerId = none)
    (hready : ∃ w ∈ db.workers.getLiveWorkers env.now, w.status = .ready) :
    let final := (runPass env (reconcile moves self) ⟨db, []⟩).2.db.buckets
    (∀ r ∈ final.records, r.state ≠ .unassigned) ∧
    ∀ r ∈ db.buckets.records, ∀ o, r.ownerId = some o → o ∉ liveIds (db.workers.getLiveWorkers env.now) →
      ∀ r' ∈ final.records, r'.id = r.id → r'.ownerId ≠ some o := by
  intro final
  have hne : readyIds (db.workers.getLiveWorkers env.now) ≠ [] := by
    obtain ⟨w, hw, hstatus⟩ := hready
    exact List.ne_nil_of_mem (mem_readyIds.mpr ⟨w, hw, hstatus, rfl⟩)
  obtain ⟨plan, s, hallocate, hids, hb, hserved⟩ := run_allocate_served henv hwf hne
  have hsub : ∀ d ∈ plan.readyIds, d ∈ liveIds (db.workers.getLiveWorkers env.now) :=
    hids ▸ readyIds_subset (db.workers.getLiveWorkers env.now)
  have hfinal := run_rebalance henv moves self hb (handed_served hsub db.buckets) hserved
  rw [← runPass_reconcile_eq hallocate] at hfinal
  constructor
  · intro r hr
    exact (hfinal.kept r hr).assigned
  · intro r hr o howner hlost r' hr' hid howner'
    have hlost' : Lost (liveIds (db.workers.getLiveWorkers env.now)) db.buckets r'.id := by
      refine ⟨r, hr, hid.symm, ?_⟩
      rw [howner]
      simpa using hlost
    obtain ⟨o', hlive, ho'⟩ := (hfinal.kept r' hr').owner hlost'
    rw [howner'] at ho'
    exact hlost (Option.some.inj ho' ▸ hlive)

/-! ## Buckets of a worker that shuts down -/

/-- The record stays as it is. -/
def Untouched (r₀ r : BucketModel) : Prop := r.id = r₀.id → r = r₀

end Passes

/-- A ready worker, one that shuts down and one that was lost. -/
def leaving : Database where
  buckets := ⟨[⟨1, .unassigned, none, none, 0⟩, ⟨2, .idle, some "c", none, 1⟩, ⟨3, .active, some "b", none, 1⟩,
    ⟨4, .draining, some "c", some "a", 2⟩], by decide⟩
  workers := ⟨[⟨"a", .ready, 100⟩, ⟨"b", .draining, 100⟩, ⟨"c", .ready, -1⟩], by decide⟩

def alone : Surroundings := ⟨0, true, [], fun _ db => db⟩

theorem alone_undisturbed : alone.Undisturbed := rfl

theorem leaving_wellFormed : ∀ r ∈ leaving.buckets.records, r.state = .unassigned ↔ r.ownerId = none := by
  intro r hr
  simp only [leaving, List.mem_cons, List.not_mem_nil, or_false] at hr
  obtain rfl | rfl | rfl | rfl := hr <;> simp

theorem leaving_ready : ∃ w ∈ leaving.workers.getLiveWorkers alone.now, w.status = .ready := by decide +kernel

theorem reconcile_serves_leaving :
    let final := (runPass alone (reconcile .all "a") ⟨leaving, []⟩).2.db.buckets
    (∀ r ∈ final.records, r.state ≠ .unassigned) ∧ ∀ r ∈ final.records, r.id = 2 → r.ownerId ≠ some "c" := by
  have h := reconcile_serves alone_undisturbed .all "a" leaving leaving_wellFormed leaving_ready
  exact ⟨h.1, h.2 ⟨2, .idle, some "c", none, 1⟩ (by decide) "c" rfl (by decide +kernel)⟩

end Linksurf
