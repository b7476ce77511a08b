import Linksurf.Coordinators
import Linksurf.PassContract

/-!
# To whom a pass hands buckets

A pass under the coordination lock, while activity is reported, workers join,
renew or leave, and records are otherwise alone. Free and reclaimed buckets go
to workers it read as ready. A drained bucket goes to its stored successor,
whatever became of that worker since it was reserved.
-/
namespace Linksurf

open Coroutine Pool

/-- While the lock is held, others leave assignments alone. -/
def Surroundings.LockRespecting (env : Surroundings) : Prop :=
  ∀ (n : Nat) (db : Database), db.buckets.Rel BucketModel.SameAssignment (env.interference n db).buckets

/-- The logged call makes the worker the owner of a bucket. -/
def MakesOwner (worker : WorkerId) : Call × Database → Prop
  | (.setBucketAssignment _ owner _, _) => owner = some worker
  | (.promoteDrainedBucket bucket owner successor, db) =>
    successor = worker ∧ db.buckets.matches? bucket (Buckets.canPromote owner successor) = true
  | _ => False

/-- The database in which a pass reads the live workers. -/
def Surroundings.readsWorkers (env : Surroundings) (db : Database) : Database :=
  let db := env.interference 1 (env.interference 0 db)
  env.interference 2 { db with workers := db.workers.deleteExpiredWorkers env.now }

/-! ## Passes as threads -/

section Safety

/-- A pass relies on assignments staying as they are and owes `pre`. -/
def passDiscipline (env : Surroundings) (pre : Call → Database → Prop) :
    Discipline Unit Database Call Call.Reply where
  inv _ := True
  rely _ db db' := db.buckets.Rel BucketModel.SameAssignment db'.buckets
  pre _ := pre
  exec _ call db reply db' := db.serve env.answer call = some (reply, db')
  refl _ db := Buckets.rel_refl .refl db.buckets
  trans h h' := h.trans BucketModel.SameAssignment.trans h'

variable {env : Surroundings} {pre : Call → Database → Prop} {α : Type}

theorem session_serve (env : Surroundings) (call : Call) (s : Session) : ∃ reply db,
    (env.interference s.log.length s.db).serve env.answer call = some (reply, db) ∧
    Session.serve env call s = (reply, ⟨db, s.log ++ [(call, env.interference s.log.length s.db)]⟩) := by
  simp only [Session.serve, Database.serve]
  cases (env.interference s.log.length s.db).execute call with
  | none => exact ⟨_, _, rfl, rfl⟩
  | some result => exact ⟨result.1, result.2, rfl, rfl⟩

/-- What a safe pass owes is paid at every entry of its log. -/
theorem runPass_safe (henv : env.LockRespecting) {post : α → Database → Prop} {c : Async α} {s : Session}
    (h : (passDiscipline env pre).Safe () post c s.db) :
    post (runPass env c s).1 (runPass env c s).2.db ∧
    ∀ e ∈ (runPass env c s).2.log, e ∈ s.log ∨ pre e.1 e.2 := by
  induction c generalizing s with
  | ret a => exact ⟨h s.db (Buckets.rel_refl .refl _) trivial, fun e he => .inl he⟩
  | await call k ih =>
    obtain ⟨reply, db, hserve, hsession⟩ := session_serve env call s
    obtain ⟨hpre, hk⟩ := h _ (henv s.log.length s.db) trivial
    rw [runPass_await, hsession]
    obtain ⟨hpost, hlog⟩ := ih reply (s := ⟨db, _⟩) (hk reply db hserve)
    refine ⟨hpost, fun e he => ?_⟩
    rcases hlog e he with hin | hin
    · rcases List.mem_append.mp hin with hin | hin
      · exact .inl hin
      · rw [List.mem_singleton.mp hin]; exact .inr hpre
    · exact .inr hin

theorem log_subset (c : Async α) (s : Session) : s.log ⊆ (runPass env c s).2.log := by
  induction c generalizing s with
  | ret a => exact List.Subset.refl _
  | await call k ih =>
    obtain ⟨reply, db, -, hsession⟩ := session_serve env call s
    rw [runPass_await, hsession]
    exact List.Subset.trans (List.subset_append_left _ _) (ih reply ⟨db, _⟩)

theorem result_of_issues (env : Surroundings) {Q : α → Prop} {c : Async α} (h : c.Issues (fun _ _ => True) (fun _ => True) Q)
    (s : Session) : Q (runPass env c s).1 := by
  induction c generalizing s with
  | ret a => exact h
  | await call k ih => exact ih _ (h.2 _ trivial) _

/-- An assertion about the records is knowledge of a pass when neither others
nor the pass's own calls falsify it. -/
theorem knows_pass {live ready : List WorkerId} {K : Database → Prop}
    (hstable : ∀ db db' : Database, K db → db.buckets.Rel BucketModel.SameAssignment db'.buckets → K db')
    (hexecute : ∀ (db : Database) (call : Call) reply db', K db → Owes live ready db.buckets call →
      db.execute call = some (reply, db') → K db')
    (hpays : ∀ (db : Database) (call : Call), K db → Owes live ready db.buckets call → pre call db)
    (hready : ∀ d ∈ ready, d ∈ live) : Knows (passDiscipline env pre) () id live ready K where
  stable db db' _ hr hK := hstable db db' hK hr
  kept db db' _ _ hr := Buckets.kept_of_rel hr
  execute db call reply db' _ hK howes he := by
    have hdb : db.execute call = some (reply, db') := by
      cases call with
      | setBucketAssignment | markBucketDraining | getBuckets => exact he
      | _ => exact howes.elim
    exact ⟨hexecute db call reply db' hK howes hdb, hdb⟩
  pays db call _ hK howes := hpays db call hK howes
  ready := hready

end Safety

/-! ## The workers a pass names -/

section Named

variable {env : Surroundings} {live ready : List WorkerId} {self : WorkerId} {db₀ : Database}

/-- A handoff is towards a ready worker or was there from the start. -/
def Reserved (ready : List WorkerId) (db₀ db : Database) : Prop :=
  ∀ id r, db.buckets.get? id = some r → r.state = .draining →
    (∃ s ∈ ready, r.successorId = some s) ∨ ∃ r₀ ∈ db₀.buckets.records, r₀.SameAssignment r

theorem Reserved.rel {db db' : Database} (h : Reserved ready db₀ db)
    (hr : db.buckets.Rel BucketModel.SameAssignment db'.buckets) : Reserved ready db₀ db' := by
  intro id r' hr' hstate
  obtain ⟨r, hget, hs⟩ := hr.back hr'
  rcases h id r hget ((hs.state_iff not_held_draining).mp hstate) with ⟨s, hin, he⟩ | ⟨r₀, hr₀, hs₀⟩
  · exact .inl ⟨s, hin, hs.successor.trans he⟩
  · exact .inr ⟨r₀, hr₀, hs₀.trans hs⟩

/-- A write that leaves DRAINING only towards ready workers. -/
theorem Reserved.updateOne {db : Database} (h : Reserved ready db₀ db) {id : Nat} {filter : BucketModel → Bool}
    {update : BucketModel → BucketModel}
    (hu : ∀ x, (update x).state = .draining → ∃ s ∈ ready, (update x).successorId = some s) :
    Reserved ready db₀ { db with buckets := db.buckets.updateOne id filter update } := by
  intro id' r hr hstate
  change (db.buckets.updateOne id filter update).get? id' = some r at hr
  rw [Buckets.get?_updateOne] at hr
  obtain ⟨x, hx, rfl⟩ := Option.map_eq_some_iff.mp hr
  unfold Buckets.rewriteOne at hstate ⊢
  split at hstate
  · rename_i hmatch
    rw [if_pos hmatch]
    exact .inl (hu x hstate)
  · rename_i hmatch
    rw [if_neg hmatch]
    exact h id' x hx hstate

/-- The pass's debt: whoever is made an owner is ready. -/
def NamesReady (ready : List WorkerId) (call : Call) (db : Database) : Prop :=
  ∀ worker, MakesOwner worker (call, db) → worker ∈ ready

theorem knows_reserved (env : Surroundings) (db₀ : Database) (hready : ∀ d ∈ ready, d ∈ live) :
    Knows (passDiscipline env (NamesReady ready)) () id live ready (Reserved ready db₀) := by
  refine knows_pass (fun _ _ h hr => h.rel hr) ?_ ?_ hready
  · intro db call reply db' h howes he
    cases call with
    | setBucketAssignment bucket owner state =>
      cases he
      exact h.updateOne (fun x hx => absurd hx howes.2.2)
    | markBucketDraining bucket owner successor =>
      cases he
      exact h.updateOne (fun x _ => ⟨successor, howes, rfl⟩)
    | getBuckets => cases he; exact h
    | _ => exact howes.elim
  · intro db call _ howes worker hmakes
    cases call with
    | setBucketAssignment bucket owner state => exact howes.2.1 worker hmakes
    | promoteDrainedBucket bucket owner successor => exact howes.elim
    | _ => exact hmakes.elim

/-- Promotions name ready workers when every drained bucket that can be
promoted is reserved for one. -/
theorem safe_promoteLocal (hready : ∀ d ∈ ready, d ∈ live)
    (hcan : env.ready = true → ∀ db, Reserved ready db₀ db ∧ Buckets.OwnedBy live db.buckets →
      ∀ id ∈ env.drained, ∀ successor,
        db.buckets.matches? id (Buckets.canPromote self successor) = true → successor ∈ ready)
    (buckets : List BucketModel) {db : Database} (hdb : Reserved ready db₀ db ∧ Buckets.OwnedBy live db.buckets) :
    (passDiscipline env (NamesReady ready)).Safe () (fun _ _ => True) (promoteLocal self buckets) db := by
  have hstable := (knows_reserved env db₀ hready).stable_with (A := Buckets.OwnedBy live)
    (fun _ _ ho hk => ho.kept hk)
  have hdone : ∀ {db}, Reserved ready db₀ db ∧ Buckets.OwnedBy live db.buckets →
      (passDiscipline env (NamesReady ready)).Safe () (fun _ _ => True) (.ret () : Async Unit) db :=
    fun hdb => Discipline.safe_ret hstable hdb (fun _ _ _ => trivial)
  have hloop : env.ready = true → ∀ ids, (∀ id ∈ ids, id ∈ env.drained) → ∀ {db},
      Reserved ready db₀ db ∧ Buckets.OwnedBy live db.buckets →
      (passDiscipline env (NamesReady ready)).Safe () (fun _ _ => True) (promoteDrained self buckets ids) db := by
    intro hon ids hids
    induction ids with
    | nil => exact hdone
    | cons id rest ih =>
      intro db hdb
      have hrest := fun x hx => hids x (List.mem_cons_of_mem _ hx)
      rw [promoteDrained]
      split
      · exact ih hrest hdb
      · rename_i successor _
        have hname := fun db hdb => hcan hon db hdb id (hids id List.mem_cons_self) successor
        refine Discipline.safe_await hstable hdb ?_ ?_
        · rintro db - hdb worker ⟨rfl, hmatch⟩
          exact hname db hdb hmatch
        · rintro db - hdb reply db' he
          cases he
          refine ih hrest ?_
          cases hmatch : db.buckets.matches? id (Buckets.canPromote self successor) with
          | false =>
            rw [Buckets.promoteDrainedBucket, Buckets.updateOne_of_not_matches hmatch]
            exact hdb
          | true =>
            refine ⟨hdb.1.updateOne (fun x hx => by cases hx), hdb.2.updateOne (fun x _ => .inr ?_)⟩
            intro owner ho
            obtain rfl := Option.some.inj ho
            exact hready _ (hname db hdb hmatch)
  refine Discipline.safe_await hstable hdb (fun _ _ _ _ hmakes => hmakes.elim) ?_
  rintro db - hdb on db' he
  cases he
  change (passDiscipline env (NamesReady ready)).Safe () _ (if env.ready then _ else _) db
  split
  · rename_i hon
    refine Discipline.safe_await hstable hdb (fun _ _ _ _ hmakes => hmakes.elim) ?_
    rintro db - hdb ids db' he
    cases he
    exact hloop hon env.drained (fun _ h => h) hdb
  · exact hdone hdb

end Named

/-! ## A drained bucket is promoted -/

section Promoted

variable {env : Surroundings} {self : WorkerId}

/-- The ids stored are the same. -/
def Buckets.SameIds (c c' : Buckets) : Prop := ∀ id, (c'.get? id).isSome = (c.get? id).isSome

theorem Buckets.sameIds_updateOne (c : Buckets) (id : Nat) (filter : BucketModel → Bool)
    (update : BucketModel → BucketModel) : c.SameIds (c.updateOne id filter update) := by
  intro id'
  rw [Buckets.get?_updateOne, Option.isSome_map]

theorem Buckets.sameIds_sync (worker : WorkerId) (states : List (Nat × BucketState)) (c : Buckets) :
    c.SameIds (c.syncOwnedBucketStates worker states) := by
  induction states generalizing c with
  | nil => exact fun _ => rfl
  | cons e states ih => exact fun id => (ih _ id).trans (Buckets.sameIds_updateOne c _ _ _ id)

theorem Buckets.Rel.sameIds {R : BucketModel → BucketModel → Prop} {c c' : Buckets} (h : c.Rel R c') :
    c.SameIds c' := by
  intro id
  have hid := h id
  generalize c.get? id = x at hid ⊢
  generalize c'.get? id = y at hid ⊢
  cases hid <;> rfl

theorem serve_sameIds {answer : (call : Call) → call.Reply} {call : Call} {db db' : Database}
    {reply : call.Reply} (h : db.serve answer call = some (reply, db')) : db.buckets.SameIds db'.buckets := by
  cases call with
  | setBucketAssignment | markBucketDraining | promoteDrainedBucket =>
    cases h; exact Buckets.sameIds_updateOne _ _ _ _
  | syncOwnedBucketStates worker states => cases h; exact Buckets.sameIds_sync worker states _
  | _ => cases h; exact fun _ => rfl

theorem runPass_sameIds (henv : env.LockRespecting) {α : Type} (c : Async α) (s : Session) :
    s.db.buckets.SameIds (runPass env c s).2.db.buckets := by
  induction c generalizing s with
  | ret a => exact fun _ => rfl
  | await call k ih =>
    obtain ⟨reply, db, hserve, hsession⟩ := session_serve env call s
    rw [runPass_await, hsession]
    exact fun id => (ih reply ⟨db, _⟩ id).trans
      ((serve_sameIds hserve id).trans ((henv _ s.db).sameIds id))

/-- `effective_owner` only grows while free buckets are given away. -/
theorem assignFree_known {ready : List WorkerId} {targets : WorkerId → Nat} (buckets : List BucketModel)
    (b : Balance) : (assignFree ready targets buckets b).Issues (fun _ _ => True) (fun _ => True)
      (fun b' => ∀ id, b.effectiveOwner id ≠ none → b'.effectiveOwner id ≠ none) := by
  induction buckets generalizing b with
  | nil => exact fun _ h => h
  | cons bucket rest ih =>
    rw [assignFree]
    split
    · exact ih b
    · split
      · exact fun _ h => h
      · refine ⟨trivial, fun _ _ => Coro.issues_mono (ih _) (fun b' hb id hid => hb id ?_)⟩
        simp only [Balance.give, Function.update_apply]
        split
        · simp
        · exact hid

/-- No `KeyError` over buckets that `effective_owner` knows. -/
theorem moveBuckets_known {ready : List WorkerId} {targets : WorkerId → Nat} {maxMoves : Nat}
    {state : BucketState} (buckets : List BucketModel) (b : Balance)
    (hb : ∀ bucket ∈ buckets, b.effectiveOwner bucket.id ≠ none) :
    (moveBuckets ready targets maxMoves state buckets b).Issues (fun _ _ => True) (fun _ => True)
      (fun result => ∃ b', result = some b' ∧ ∀ id, b.effectiveOwner id ≠ none → b'.effectiveOwner id ≠ none) := by
  induction buckets generalizing b with
  | nil => exact ⟨b, rfl, fun _ h => h⟩
  | cons bucket rest ih =>
    have hrest : ∀ x ∈ rest, b.effectiveOwner x.id ≠ none := fun x hx => hb x (List.mem_cons_of_mem _ hx)
    rw [moveBuckets]
    split
    · exact ⟨b, rfl, fun _ h => h⟩
    · split
      · rename_i hnone
        exact absurd hnone (hb bucket List.mem_cons_self)
      · exact ih b hrest
      · rename_i source _
        split
        · exact ih b hrest
        · split
          · exact ⟨b, rfl, fun _ h => h⟩
          · rename_i destination _
            refine ⟨trivial, fun marked _ => ?_⟩
            change Coro.Issues _ _ _ (if marked then _ else _)
            split
            · have hgrow : ∀ id, b.effectiveOwner id ≠ none →
                  (b.move bucket.id source destination).effectiveOwner id ≠ none := by
                intro id hid
                simp only [Balance.move, Function.update_apply]
                split
                · simp
                · exact hid
              refine Coro.issues_mono (ih _ (fun x hx => hgrow _ (hrest x hx))) ?_
              rintro result ⟨b', rfl, hb'⟩
              exact ⟨b', rfl, fun id hid => hb' id (hgrow id hid)⟩
            · exact ih b hrest

theorem moveAll_known (moves : BucketMoves) {plan : Plan} {buckets : List BucketModel}
    (hb : ∀ bucket ∈ buckets, plan.balance.effectiveOwner bucket.id ≠ none) :
    (moveAll moves plan buckets).Issues (fun _ _ => True) (fun _ => True) (fun result => result ≠ none) := by
  refine Coro.issues_bind (moveBuckets_known buckets _ hb) ?_
  rintro _ ⟨b, rfl, hgrow⟩
  dsimp only
  split
  · exact fun h => by cases h
  · refine Coro.issues_mono (moveBuckets_known buckets b (fun x hx => hgrow _ (hb x hx))) ?_
    rintro _ ⟨b', rfl, -⟩ h
    cases h

theorem serve_sameIds_session (henv : env.LockRespecting) (call : Call) (s : Session) :
    s.db.buckets.SameIds (Session.serve env call s).2.db.buckets := by
  obtain ⟨reply, db, hserve, hsession⟩ := session_serve env call s
  rw [hsession]
  exact fun id => (serve_sameIds hserve id).trans ((henv _ s.db).sameIds id)

/-- With somebody ready, `allocate` plans for every stored bucket. -/
theorem allocateAmong_known (henv : env.LockRespecting) {workers : List WorkerModel}
    (hready : readyIds workers ≠ []) (s : Session) :
    ∃ plan, (runPass env (allocateAmong workers) s).1 = some plan ∧
      ∀ id, (s.db.buckets.get? id).isSome → plan.balance.effectiveOwner id ≠ none := by
  let s₁ := (Session.serve env .getBuckets s).2
  let s₂ := (runPass env (reclaim (liveIds workers) (readyIds workers) s₁.db.buckets.records) s₁).2
  let s₃ := (Session.serve env .getBuckets s₂).2
  let targets := targetCounts (readyIds workers) s₃.db.buckets.records.length
  let given := assignFree (readyIds workers) targets s₃.db.buckets.records
    (.ofBuckets (readyIds workers) s₃.db.buckets.records)
  have hrun : (runPass env (allocateAmong workers) s).1 =
      some ⟨readyIds workers, targets, (runPass env given s₃).1⟩ := by
    change (runPass env (.await .getBuckets fun buckets => reclaim _ _ buckets >>= fun _ => _) s).1 = _
    rw [runPass_await, runPass_bind, if_neg hready]
    change (runPass env (.await .getBuckets fun buckets => assignFree _ _ buckets _ >>= fun _ => _) s₂).1 = _
    rw [runPass_await, runPass_bind]
    rfl
  refine ⟨_, hrun, fun id hid => ?_⟩
  have hids : (s₃.db.buckets.get? id).isSome := by
    rw [serve_sameIds_session henv .getBuckets s₂ id, runPass_sameIds henv _ s₁ id,
      serve_sameIds_session henv .getBuckets s id]
    exact hid
  refine result_of_issues env (assignFree_known _ _) s₃ id ?_
  obtain ⟨r, hr⟩ := Option.isSome_iff_exists.mp hids
  change (s₃.db.buckets.get? id).map _ ≠ none
  rw [hr]
  simp

/-- The record is still stored with this assignment. -/
def Stored (r₀ : BucketModel) (db : Database) : Prop :=
  ∃ r, db.buckets.get? r₀.id = some r ∧ r₀.SameAssignment r

variable {r₀ : BucketModel} {worker : WorkerId} {moves : BucketMoves}

theorem Stored.rel {db db' : Database} (h : Stored r₀ db)
    (hr : db.buckets.Rel BucketModel.SameAssignment db'.buckets) : Stored r₀ db' := by
  obtain ⟨r, hget, hs⟩ := h
  obtain ⟨r', hget', hs'⟩ := hr.forth hget
  exact ⟨r', hget', hs.trans hs'⟩

/-- A pass leaves a handoff of a live owner alone until it promotes. -/
theorem knows_stored (env : Surroundings) {live ready : List WorkerId} (hstate : r₀.state = .draining)
    (howner : r₀.ownerId = some self) (hlive : self ∈ live) (hready : ∀ d ∈ ready, d ∈ live) :
    Knows (passDiscipline env (fun _ _ => True)) () id live ready (Stored r₀) := by
  refine knows_pass (fun _ _ h hr => h.rel hr) ?_ (fun _ _ _ _ => trivial) hready
  rintro db call reply db' ⟨r, hget, hs⟩ howes he
  have hdraining : r.state = .draining := (hs.state_iff not_held_draining).mpr hstate
  cases call with
  | setBucketAssignment bucket owner state =>
    cases he
    have hne : r₀.id ≠ bucket := by
      rintro rfl
      rcases howes.1 r hget with hfree | ⟨o, ho, hdead⟩
      · rw [hdraining] at hfree; cases hfree
      · rw [hs.owner, howner] at ho
        obtain rfl := Option.some.inj ho
        exact hdead hlive
    exact ⟨r, (Buckets.get?_updateOne_other _ hne _ _).trans hget, hs⟩
  | markBucketDraining bucket owner successor =>
    cases he
    refine ⟨r, ?_, hs⟩
    change (db.buckets.updateOne _ _ _).get? _ = _
    rw [Buckets.get?_updateOne, hget, Option.map_some, Buckets.rewriteOne, if_neg]
    simp [Buckets.canDrain, hdraining]
  | getBuckets => cases he; exact ⟨r, hget, hs⟩
  | _ => exact howes.elim

theorem promoteDrained_makesOwner (henv : env.LockRespecting) (hstate : r₀.state = .draining)
    (howner : r₀.ownerId = some self) (hsuccessor : r₀.successorId = some worker) {buckets : List BucketModel}
    (hfind : (buckets.find? (fun bucket => bucket.id = r₀.id)).bind (·.successorId) = some worker)
    (ids : List Nat) (hid : r₀.id ∈ ids) (s : Session) (hs : Stored r₀ s.db) :
    ∃ e ∈ (runPass env (promoteDrained self buckets ids) s).2.log, MakesOwner worker e := by
  induction ids generalizing s with
  | nil => cases hid
  | cons id rest ih =>
    by_cases he : id = r₀.id
    · subst he
      rw [promoteDrained, hfind]
      refine ⟨(.promoteDrainedBucket r₀.id self worker, env.interference s.log.length s.db), ?_, rfl, ?_⟩
      · obtain ⟨reply, db, -, hsession⟩ := session_serve env (.promoteDrainedBucket r₀.id self worker) s
        change _ ∈ (runPass env (.await _ _) s).2.log
        rw [runPass_await, hsession]
        exact log_subset _ _ (List.mem_append_right _ (List.mem_singleton.mpr rfl))
      · obtain ⟨r, hget, hsame⟩ := hs.rel (henv s.log.length s.db)
        rw [Buckets.matches?, hget]
        simp [Buckets.canPromote, hsame.owner, howner, hsame.successor, hsuccessor,
          (hsame.state_iff not_held_draining).mpr hstate]
    · have hrest : r₀.id ∈ rest := (List.mem_cons.mp hid).resolve_left (fun h => he h.symm)
      rw [promoteDrained]
      split
      · exact ih hrest s hs
      · rename_i successor _
        obtain ⟨reply, db, hserve, hsession⟩ := session_serve env (.promoteDrainedBucket id self successor) s
        change ∃ e ∈ (runPass env (.await _ _) s).2.log, _
        rw [runPass_await, hsession]
        refine ih hrest ⟨db, _⟩ ?_
        obtain ⟨r, hget, hsame⟩ := hs.rel (henv s.log.length s.db)
        cases hserve
        exact ⟨r, (Buckets.get?_updateOne_other _ (Ne.symm he) _ _).trans hget, hsame⟩

/-- What a pass does until it has read the workers. -/
theorem runPass_readWorkers (env : Surroundings) (db : Database) : runPass env readWorkers ⟨db, []⟩ =
    ((env.readsWorkers db).workers.getLiveWorkers env.now, ⟨env.readsWorkers db,
      [(.now, env.interference 0 db), (.deleteExpiredWorkers env.now, env.interference 1 (env.interference 0 db)),
        (.getLiveWorkers env.now, env.readsWorkers db)]⟩) := rfl

theorem readsWorkers_rel (henv : env.LockRespecting) (db : Database) :
    db.buckets.Rel BucketModel.SameAssignment (env.readsWorkers db).buckets := by
  have hread := henv 2 { env.interference 1 (env.interference 0 db) with
    workers := (env.interference 1 (env.interference 0 db)).workers.deleteExpiredWorkers env.now }
  exact ((henv 0 db).trans .trans (henv 1 _)).trans .trans hread

theorem promoteLocal_makesOwner (henv : env.LockRespecting) {buckets : List BucketModel}
    (hdrained : r₀.id ∈ env.drained) (howner : r₀.ownerId = some self) (hstate : r₀.state = .draining)
    (hsuccessor : r₀.successorId = some worker) (hon : env.ready = true)
    (hfind : (buckets.find? (fun bucket => bucket.id = r₀.id)).bind (·.successorId) = some worker) {s : Session}
    (hs : Stored r₀ s.db) : ∃ e ∈ (runPass env (promoteLocal self buckets) s).2.log, MakesOwner worker e := by
  change ∃ e ∈ (runPass env (.await .backQueueReady fun on => if on then _ else _) s).2.log, _
  rw [runPass_await]
  change ∃ e ∈ (runPass env (if env.ready then _ else _) _).2.log, _
  rw [if_pos hon]
  change ∃ e ∈ (runPass env (.await .drainedBuckets fun ids => promoteDrained _ _ ids) _).2.log, _
  rw [runPass_await]
  refine promoteDrained_makesOwner henv hstate howner hsuccessor hfind env.drained hdrained _ ?_
  exact (hs.rel (henv _ _)).rel (henv _ _)

theorem rebalance_makesOwner (henv : env.LockRespecting) {workers : List WorkerModel} {plan : Plan}
    (hids : plan.readyIds = readyIds workers) {s : Session}
    (hknown : ∀ id, (s.db.buckets.get? id).isSome → plan.balance.effectiveOwner id ≠ none)
    (hdrained : r₀.id ∈ env.drained) (howner : r₀.ownerId = some self) (hstate : r₀.state = .draining)
    (hsuccessor : r₀.successorId = some worker) (hon : env.ready = true) (hlive : self ∈ liveIds workers)
    (hs : Stored r₀ s.db ∧ Buckets.OwnedBy (liveIds workers) s.db.buckets) :
    ∃ e ∈ (runPass env (rebalance moves self (some plan)) s).2.log, MakesOwner worker e := by
  have hknows := knows_stored env hstate howner hlive (readyIds_subset workers)
  let s₂ := (Session.serve env .getBuckets s).2
  have hrel : s.db.buckets.Rel BucketModel.SameAssignment s₂.db.buckets := henv s.log.length s.db
  have hs₂ : Stored r₀ s₂.db ∧ Buckets.OwnedBy (liveIds workers) s₂.db.buckets :=
    ⟨hs.1.rel hrel, hs.2.kept (Buckets.kept_of_rel hrel)⟩
  have hfind : (s₂.db.buckets.records.find? (fun bucket => bucket.id = r₀.id)).bind (·.successorId) = some worker := by
    obtain ⟨r, hget, hsame⟩ := hs₂.1
    change (s₂.db.buckets.get? r₀.id).bind _ = _
    rw [hget, Option.bind_some, hsame.successor, hsuccessor]
  have hall : ∀ bucket ∈ s₂.db.buckets.records, plan.balance.effectiveOwner bucket.id ≠ none := by
    intro bucket hb
    refine hknown bucket.id ?_
    rw [← hrel.sameIds bucket.id, Buckets.get?_of_mem hb]
    rfl
  have hmoved := result_of_issues env (moveAll_known moves hall) s₂
  obtain ⟨hs₃, -⟩ := runPass_safe henv (hknows.moveAll moves hids s₂.db.buckets.records hs₂)
  have hread : Session.serve env .getBuckets s = (s₂.db.buckets.records, s₂) := rfl
  change ∃ e ∈ (runPass env (.await .getBuckets fun buckets => moveAll moves plan buckets >>= fun _ => _) s).2.log, _
  rw [runPass_await, hread, runPass_bind]
  generalize runPass env (moveAll moves plan s₂.db.buckets.records) s₂ = moved at hmoved hs₃ ⊢
  obtain ⟨_ | b, s₃⟩ := moved
  · exact absurd rfl hmoved
  · dsimp only
    rw [runPass_bind]
    exact promoteLocal_makesOwner henv hdrained howner hstate hsuccessor hon hfind hs₃.1

/-- The drained bucket of a live owner goes to its successor as soon as anybody
is ready, whether the successor is or not. -/
theorem reconcile_makesOwner (moves : BucketMoves) (henv : env.LockRespecting) {db : Database} (hr₀ : r₀ ∈ db.buckets.records)
    (hdrained : r₀.id ∈ env.drained) (howner : r₀.ownerId = some self) (hstate : r₀.state = .draining)
    (hsuccessor : r₀.successorId = some worker) (hon : env.ready = true)
    (hready : readyIds ((env.readsWorkers db).workers.getLiveWorkers env.now) ≠ [])
    (hlive : self ∈ liveIds ((env.readsWorkers db).workers.getLiveWorkers env.now)) :
    ∃ e ∈ (runPass env (reconcile moves self) ⟨db, []⟩).2.log, MakesOwner worker e := by
  have hknows := knows_stored env hstate howner hlive (readyIds_subset _)
  have hstored : Stored r₀ (env.readsWorkers db) :=
    Stored.rel ⟨r₀, Buckets.get?_of_mem hr₀, .refl r₀⟩ (readsWorkers_rel henv db)
  rw [reconcile_eq, runPass_bind, runPass_readWorkers, runPass_bind]
  generalize [(Call.now, _), _, _] = log
  obtain ⟨⟨hs, hids⟩, -⟩ := runPass_safe henv (s := ⟨env.readsWorkers db, log⟩) (hknows.allocateAmong hstored)
  obtain ⟨plan, hplan, hknown⟩ := allocateAmong_known henv hready ⟨env.readsWorkers db, log⟩
  have hsame := runPass_sameIds henv (allocateAmong ((env.readsWorkers db).workers.getLiveWorkers env.now))
    ⟨env.readsWorkers db, log⟩
  rw [hplan]
  refine rebalance_makesOwner henv (hids plan hplan).1 (fun id hid => hknown id ?_) hdrained howner hstate
    hsuccessor hon hlive hs
  rw [← hsame id]
  exact hid

end Promoted

/-! ## The result -/

/-- Exactly when a pass names only ready owners: nobody is ready, the back queue
is not, the worker itself is not live, or every bucket it has drained is reserved
for a ready worker. -/
theorem owners_ready (moves : BucketMoves) (env : Surroundings) (henv : env.LockRespecting) (self : WorkerId)
    (db : Database) (hdb : ∀ r ∈ db.buckets.records, r.WellFormed) :
    let live := (env.readsWorkers db).workers.getLiveWorkers env.now
    let result := runPass env (reconcile moves self) ⟨db, []⟩
    (.getLiveWorkers env.now, env.readsWorkers db) ∈ result.2.log ∧
    ((∀ e ∈ result.2.log, ∀ worker, MakesOwner worker e → worker ∈ readyIds live) ↔
      (readyIds live = [] ∨ env.ready = false ∨ self ∉ liveIds live ∨
        ∀ r ∈ db.buckets.records, r.id ∈ env.drained → r.ownerId = some self → r.state = .draining →
          ∃ successor ∈ readyIds live, r.successorId = some successor)) := by
  intro live result
  have hsplit : result = runPass env (allocateAmong live >>= rebalance moves self) ⟨env.readsWorkers db,
      [(.now, env.interference 0 db), (.deleteExpiredWorkers env.now, env.interference 1 (env.interference 0 db)),
        (.getLiveWorkers env.now, env.readsWorkers db)]⟩ := rfl
  refine ⟨?_, fun hnamed => ?_, fun hcond => ?_⟩
  · rw [hsplit]
    exact log_subset _ _ (by simp)
  · by_contra hnot
    push Not at hnot
    obtain ⟨hready, hon, hlive, r, hr, hdrained, howner, hstate, hunready⟩ := hnot
    have hne := (hdb r hr).draining.mp hstate
    obtain ⟨successor, hsuccessor⟩ := Option.ne_none_iff_exists'.mp hne
    obtain ⟨e, he, hmakes⟩ := reconcile_makesOwner moves henv hr hdrained howner hstate hsuccessor
      (by simpa using hon) hready hlive
    exact hunready successor (hnamed e he successor hmakes) hsuccessor
  · have hrel := readsWorkers_rel henv db
    have hreserved : Reserved (readyIds live) db (env.readsWorkers db) := by
      intro id r hget _
      obtain ⟨r₀, hr₀, hs⟩ := hrel.back hget
      exact .inr ⟨r₀, Buckets.get?_mem hr₀, hs⟩
    have hsafe := (knows_reserved env db (readyIds_subset live)).pass moves self
      (fun buckets s _ hs hready => safe_promoteLocal (readyIds_subset live) ?_ buckets hs) hreserved
    · obtain ⟨-, hlog⟩ := runPass_safe henv (s := ⟨env.readsWorkers db, _⟩) hsafe
      intro e he worker hmakes
      rw [hsplit] at he
      rcases hlog e he with hin | hpre
      · simp only [List.mem_cons, List.not_mem_nil, or_false] at hin
        rcases hin with rfl | rfl | rfl <;> exact hmakes.elim
      · exact hpre worker hmakes
    · rintro hon db' ⟨hres, howned⟩ id hid successor hmatch
      obtain ⟨r, hget, hcan⟩ := (Option.any_eq_true _ _).mp hmatch
      obtain ⟨howner, hsuccessor, hstate⟩ := Buckets.canPromote_iff.mp hcan
      rcases hcond with hnil | hoff | hdead | hcond
      · exact absurd hnil hready
      · rw [hon] at hoff; cases hoff
      · exact absurd (howned id r hget self howner) hdead
      · rcases hres id r hget hstate with ⟨s', hin, hs'⟩ | ⟨r₀, hr₀, hsame⟩
        · rwa [← Option.some.inj (hs'.symm.trans hsuccessor)]
        · obtain ⟨s', hin, hs'⟩ := hcond r₀ hr₀ (by rw [← hsame.id, Buckets.get?_id hget]; exact hid)
            (hsame.owner ▸ howner) ((hsame.state_iff not_held_draining).mp hstate)
          rwa [← Option.some.inj ((hsame.successor.trans hs').symm.trans hsuccessor)]

/-- A handoff to a ready worker is about to be promoted. -/
def handingOver : Database where
  buckets := ⟨[⟨1, .draining, some "a", some "b", 2⟩, ⟨2, .idle, some "b", none, 1⟩], by decide⟩
  workers := ⟨[⟨"a", .ready, 120⟩, ⟨"b", .ready, 120⟩], by decide⟩

theorem handingOver_wellFormed : ∀ r ∈ handingOver.buckets.records, r.WellFormed := by
  intro r hr
  simp only [handingOver, List.mem_cons, List.not_mem_nil, or_false] at hr
  rcases hr with rfl | rfl <;> exact ⟨by simp, by simp, by simp⟩

theorem owners_ready_handingOver :
    let log := (runPass ⟨0, true, [1], fun _ db => db⟩ (reconcile .all "a") ⟨handingOver, []⟩).2.log
    (∃ e ∈ log, MakesOwner "b" e) ∧
      ∀ e ∈ log, ∀ worker, MakesOwner worker e → worker ∈ readyIds (handingOver.workers.getLiveWorkers 0) := by
  have henv : Surroundings.LockRespecting ⟨0, true, [1], fun _ db => db⟩ := fun _ db => Buckets.rel_refl .refl _
  constructor
  · have hstored : ⟨1, .draining, some "a", some "b", 2⟩ ∈ handingOver.buckets.records := by decide
    exact reconcile_makesOwner .all henv hstored (by decide) rfl rfl rfl rfl (by decide +kernel) (by decide +kernel)
  · refine (owners_ready .all _ henv "a" handingOver handingOver_wellFormed).2.mpr (.inr (.inr (.inr ?_)))
    intro r hr hdrained _ _
    simp only [handingOver, List.mem_cons, List.not_mem_nil, or_false] at hr
    rcases hr with rfl | rfl
    · exact ⟨"b", by decide +kernel, rfl⟩
    · simp at hdrained

/-- After a pass of `a` marked half of its buckets for `b`, `b` shut down. -/
def stranded : Database where
  buckets := ⟨(List.range' 1 BUCKET_COUNT).map (fun id =>
      if id ≤ 128 then ⟨id, .draining, some "a", some "b", 2⟩ else ⟨id, .idle, some "a", none, 1⟩), by
    rw [List.pairwise_map]
    refine List.Pairwise.imp (fun {i j} h => ?_) List.pairwise_lt_range'
    split <;> split <;> exact h⟩
  workers := ⟨[⟨"a", .ready, 100⟩], by decide⟩

/-- A bucket drained after its successor shut down is given to the successor. -/
theorem owner_gone : ¬ ∀ e ∈
    (runPass ⟨0, true, List.range' 1 128, fun _ db => db⟩ (reconcile .all "a") ⟨stranded, []⟩).2.log,
    ∀ worker, MakesOwner worker e → worker ∈ readyIds (stranded.workers.getLiveWorkers 0) := by
  intro h
  have henv : Surroundings.LockRespecting ⟨0, true, List.range' 1 128, fun _ db => db⟩ :=
    fun _ db => Buckets.rel_refl .refl _
  have hstored : ⟨1, .draining, some "a", some "b", 2⟩ ∈ stranded.buckets.records := by decide
  obtain ⟨e, he, hmakes⟩ := reconcile_makesOwner .all henv hstored (by decide) rfl rfl rfl rfl
    (by decide +kernel) (by decide +kernel)
  have hb := h e he "b" hmakes
  revert hb
  decide +kernel

end Linksurf
