import Linksurf.Worker

/-!
# A pass on its own

The database calls of the protocol act on the stored records; the answers to
the others come from the worker's surroundings. Between two operations of a
pass the rest of the system may change the database. A pass is undisturbed when
it does not.
-/
namespace Linksurf

open Coroutine

/-- The database calls, each one atomic step; `none` for a local operation. -/
def Database.execute (db : Database) : (call : Call) → Option (call.Reply × Database)
  | .deleteExpiredWorkers now => some ((), { db with workers := db.workers.deleteExpiredWorkers now })
  | .getLiveWorkers now => some (db.workers.getLiveWorkers now, db)
  | .getBuckets => some (db.buckets.records, db)
  | .getOwnedBuckets worker => some (db.buckets.getOwnedBuckets worker, db)
  | .setBucketAssignment bucket owner state =>
    some ((), { db with buckets := db.buckets.setBucketAssignment bucket owner state })
  | .markBucketDraining bucket owner successor =>
    some (db.buckets.matches? bucket (Buckets.canDrain owner),
      { db with buckets := db.buckets.markBucketDraining bucket owner successor })
  | .promoteDrainedBucket bucket owner successor =>
    some (db.buckets.matches? bucket (Buckets.canPromote owner successor),
      { db with buckets := db.buckets.promoteDrainedBucket bucket owner successor })
  | .syncOwnedBucketStates worker states =>
    some ((), { db with buckets := db.buckets.syncOwnedBucketStates worker states })
  | .deleteWorker worker => some ((), { db with workers := db.workers.deleteWorker worker })
  | _ => none

/-- What a pass meets outside the database. `interference n` is what the rest of
the system does to the database before the pass's operation number `n`. -/
structure Surroundings where
  now : Time
  ready : Bool
  drained : List Nat
  interference : Nat → Database → Database := fun _ db => db

def Surroundings.Undisturbed (env : Surroundings) : Prop := env.interference = fun _ db => db

/-- The answers to local operations. -/
def Surroundings.answer (env : Surroundings) : (call : Call) → call.Reply
  | .now => env.now
  | .backQueueReady => env.ready
  | .drainedBuckets => env.drained
  | .getLiveWorkers _ => []
  | .getBuckets => []
  | .getOwnedBuckets _ => []
  | .markBucketDraining _ _ _ => false
  | .promoteDrainedBucket _ _ _ => false
  | .releaseLock => true
  | .bucketStates => []
  | .deleteExpiredWorkers _ => ()
  | .setBucketAssignment _ _ _ => ()
  | .syncOwnedBucketStates _ _ => ()
  | .deleteWorker _ => ()
  | .acquireLock => ()
  | .setBuckets _ => ()

/-- The database and the operations so far, each with the database it met. -/
structure Session where
  db : Database
  log : List (Call × Database) := []

def Session.serve (env : Surroundings) (call : Call) (s : Session) : call.Reply × Session :=
  let db := env.interference s.log.length s.db
  match db.execute call with
  | some (reply, db') => (reply, ⟨db', s.log ++ [(call, db)]⟩)
  | none => (env.answer call, ⟨db, s.log ++ [(call, db)]⟩)

/-- Run a coroutine of the protocol to its end. -/
def runPass {α : Type} (env : Surroundings) (c : Async α) (s : Session) : α × Session :=
  c.run (Session.serve env) s

theorem runPass_bind {α β : Type} (env : Surroundings) (c : Async α) (f : α → Async β) (s : Session) :
    runPass env (c >>= f) s = runPass env (f (runPass env c s).1) (runPass env c s).2 :=
  Coro.run_bind _ c f s

@[simp] theorem runPass_ret {α : Type} (env : Surroundings) (a : α) (s : Session) :
    runPass env (.ret a) s = (a, s) := rfl

@[simp] theorem runPass_await {α : Type} (env : Surroundings) (call : Call)
    (k : call.Reply → Async α) (s : Session) :
    runPass env (.await call k) s =
      runPass env (k (Session.serve env call s).1) (Session.serve env call s).2 := rfl

/-- Whatever a coroutine can issue is all that its run adds to the log. -/
theorem log_of_issues {α : Type} (env : Surroundings) {P : Call → Prop} {Q : α → Prop} {c : Async α}
    (hc : c.Issues (fun _ _ => True) P Q) (s : Session) :
    ∀ e ∈ (runPass env c s).2.log, e ∈ s.log ∨ P e.1 := by
  induction c generalizing s with
  | ret a => intro e he; exact .inl he
  | await call k ih =>
    intro e he
    have hlog : (Session.serve env call s).2.log =
        s.log ++ [(call, env.interference s.log.length s.db)] := by
      unfold Session.serve
      dsimp only
      split <;> rfl
    rcases ih _ (hc.2 _ trivial) _ e he with h | h
    · rw [hlog, List.mem_append, List.mem_singleton] at h
      rcases h with h | rfl
      · exact .inl h
      · exact .inr hc.1
    · exact .inr h

/-! ## Undisturbed operations -/

section Undisturbed

variable {env : Surroundings}

theorem runPass_execute {α : Type} (h : env.Undisturbed) {call : Call} {k : call.Reply → Async α}
    {s : Session} {reply : call.Reply} {db : Database} (he : s.db.execute call = some (reply, db)) :
    runPass env (.await call k) s = runPass env (k reply) ⟨db, s.log ++ [(call, s.db)]⟩ := by
  have hi : env.interference s.log.length s.db = s.db := by rw [h]
  rw [runPass_await]
  simp only [Session.serve, hi, he]

/-- The session after a read or a local operation. -/
def Session.asked (s : Session) (call : Call) : Session := ⟨s.db, s.log ++ [(call, s.db)]⟩

theorem runPass_read {α : Type} (h : env.Undisturbed) {call : Call} {k : call.Reply → Async α}
    {s : Session} {reply : call.Reply} (he : s.db.execute call = some (reply, s.db)) :
    runPass env (.await call k) s = runPass env (k reply) (s.asked call) := runPass_execute h he

theorem runPass_local {α : Type} (h : env.Undisturbed) {call : Call} {k : call.Reply → Async α}
    {s : Session} (he : s.db.execute call = none) :
    runPass env (.await call k) s = runPass env (k (env.answer call)) (s.asked call) := by
  have hi : env.interference s.log.length s.db = s.db := by rw [h]
  rw [runPass_await]
  simp only [Session.serve, hi, he, Session.asked]

/-- The session after one bucket write. -/
def Session.wrote (s : Session) (call : Call) (buckets : Buckets) : Session :=
  ⟨{ s.db with buckets }, s.log ++ [(call, s.db)]⟩

theorem runPass_write {α : Type} (h : env.Undisturbed) {call : Call} {k : call.Reply → Async α}
    {s : Session} {reply : call.Reply} {buckets : Buckets}
    (he : s.db.execute call = some (reply, { s.db with buckets })) :
    runPass env (.await call k) s = runPass env (k reply) (s.wrote call buckets) := runPass_execute h he

end Undisturbed

end Linksurf
