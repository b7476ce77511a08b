import Linksurf.Buckets
import Linksurf.Coroutine
import Mathlib.Data.List.MinMax
import Mathlib.Data.List.Sort
import Mathlib.Data.Prod.Lex
import Mathlib.Data.String.Basic
import Mathlib.Logic.Function.Basic

/-!
# The worker's bucket protocol

`linksurf/worker.py` as coroutines. Every awaited call is one operation, and so
is each synchronous access to state another task can change (the clock, the
BackQueue's buckets). Loops are recursions over the list Python iterates. A
raised exception ends the coroutine, after the lock it holds is released.
-/
namespace Linksurf

open Coroutine

/-- The operations of the protocol. -/
inductive Call where
  | now
  | deleteExpiredWorkers (now : Time)
  | getLiveWorkers (now : Time)
  | getBuckets
  | getOwnedBuckets (worker : WorkerId)
  | setBucketAssignment (bucket : Nat) (owner : Option WorkerId) (state : BucketState)
  | markBucketDraining (bucket : Nat) (owner successor : WorkerId)
  | promoteDrainedBucket (bucket : Nat) (owner successor : WorkerId)
  | syncOwnedBucketStates (worker : WorkerId) (states : List (Nat × BucketState))
  | deleteWorker (worker : WorkerId)
  | acquireLock
  | releaseLock
  | backQueueReady
  | bucketStates
  | drainedBuckets
  | setBuckets (assignments : List BucketModel)
  deriving DecidableEq

/-- What each operation returns. `releaseLock` tells whether the lease was still
owned; when it was not, `LockOwnershipError` is raised. -/
@[reducible] def Call.Reply : Call → Type
  | .now => Time
  | .getLiveWorkers _ => List WorkerModel
  | .getBuckets => List BucketModel
  | .getOwnedBuckets _ => List BucketModel
  | .markBucketDraining _ _ _ => Bool
  | .promoteDrainedBucket _ _ _ => Bool
  | .releaseLock => Bool
  | .backQueueReady => Bool
  | .bucketStates => List (Nat × BucketState)
  | .drainedBuckets => List Nat
  | _ => Unit

abbrev Async (α : Type) := Coro Call Call.Reply α

abbrev await (call : Call) : Async call.Reply := Coro.perform call

/-! ## Allocation arithmetic -/

/-- `live_ids`. -/
def liveIds (liveWorkers : List WorkerModel) : List WorkerId := liveWorkers.map (·.id)

/-- `ready_ids`: the live workers with status `READY`, sorted. -/
def readyIds (liveWorkers : List WorkerModel) : List WorkerId :=
  ((liveWorkers.filter (fun worker => worker.status = .ready)).map (·.id)).insertionSort (· ≤ ·)

/-- `Worker.target_counts`; workers outside the list have target 0, which is
what `targets.get(source, 0)` reads. -/
def targetCounts (workerIds : List WorkerId) (bucketCount : Nat) (worker : WorkerId) : Nat :=
  if worker ∈ workerIds then
    bucketCount / workerIds.length +
      (if workerIds.idxOf worker < bucketCount % workerIds.length then 1 else 0)
  else 0

/-- A worker about to own the bucket: the successor of a handoff to a ready
worker, otherwise the owner. -/
def effectiveOwner (readyIds : List WorkerId) (bucket : BucketModel) : Option WorkerId :=
  if bucket.state = .draining ∧ bucket.successorId.any (· ∈ readyIds) then bucket.successorId
  else bucket.ownerId

/-- The local variables `loads`, `effective_owner` and `moves` of a pass.
`effective_owner` is a dictionary over the ids read, and `loads` one over the
ready workers, zero elsewhere. -/
structure Balance where
  loads : WorkerId → Nat
  effectiveOwner : Nat → Option (Option WorkerId)
  moves : Nat

def Balance.ofBuckets (readyIds : List WorkerId) (buckets : List BucketModel) : Balance where
  loads worker := if worker ∈ readyIds then
    buckets.countP (fun bucket => Linksurf.effectiveOwner readyIds bucket = some worker) else 0
  effectiveOwner id := (buckets.find? (fun bucket => bucket.id = id)).map (Linksurf.effectiveOwner readyIds)
  moves := 0

/-- Bookkeeping after a free bucket was given away. -/
def Balance.give (b : Balance) (bucket : Nat) (destination : WorkerId) : Balance :=
  { b with
    loads := Function.update b.loads destination (b.loads destination + 1)
    effectiveOwner := Function.update b.effectiveOwner bucket (some (some destination)) }

/-- Bookkeeping after a handoff was marked. -/
def Balance.move (b : Balance) (bucket : Nat) (source destination : WorkerId) : Balance :=
  let relieved := Function.update b.loads source (b.loads source - 1)
  { loads := Function.update relieved destination (relieved destination + 1)
    effectiveOwner := Function.update b.effectiveOwner bucket (some (some destination))
    moves := b.moves + 1 }

/-- `receiver()`: the ready worker below its target with the least load, the
smallest id first. -/
def receiver (readyIds : List WorkerId) (targets loads : WorkerId → Nat) : Option WorkerId :=
  (readyIds.filter (fun worker => loads worker < targets worker)).argmin
    (fun worker => toLex (loads worker, worker))

/-! ## Reconciliation -/

/-- Reclaim the buckets of owners that are no longer live. -/
def reclaim (liveIds readyIds : List WorkerId) : List BucketModel → Async Unit
  | [] => pure ()
  | bucket :: rest => do
    if bucket.ownerId.all (· ∈ liveIds) then
      reclaim liveIds readyIds rest
    else
      if bucket.state = .draining ∧ bucket.successorId.any (· ∈ readyIds) then
        await (.setBucketAssignment bucket.id bucket.successorId .idle)
      else
        await (.setBucketAssignment bucket.id none .unassigned)
      reclaim liveIds readyIds rest

/-- Assign the free buckets, stopping when nobody is below its target. -/
def assignFree (readyIds : List WorkerId) (targets : WorkerId → Nat) :
    List BucketModel → Balance → Async Balance
  | [], b => pure b
  | bucket :: rest, b =>
    if bucket.state ≠ .unassigned then assignFree readyIds targets rest b
    else match receiver readyIds targets b.loads with
      | none => pure b
      | some destination => do
        await (.setBucketAssignment bucket.id (some destination) .idle)
        assignFree readyIds targets rest (b.give bucket.id destination)

/-- One pass of the move loop over the buckets in one state. `none` is the
`KeyError` of a bucket that `effective_owner` does not know. -/
def moveBuckets (readyIds : List WorkerId) (targets : WorkerId → Nat) (maxMoves : Nat)
    (state : BucketState) : List BucketModel → Balance → Async (Option Balance)
  | [], b => pure (some b)
  | bucket :: rest, b =>
    if maxMoves ≤ b.moves then pure (some b)
    else match b.effectiveOwner bucket.id with
      | none => pure none
      | some none => moveBuckets readyIds targets maxMoves state rest b
      | some (some source) =>
        if bucket.state ≠ state ∨ b.loads source ≤ targets source then
          moveBuckets readyIds targets maxMoves state rest b
        else match receiver readyIds targets b.loads with
          | none => pure (some b)
          | some destination => do
            if ← await (.markBucketDraining bucket.id source destination) then
              moveBuckets readyIds targets maxMoves state rest (b.move bucket.id source destination)
            else
              moveBuckets readyIds targets maxMoves state rest b

/-- Promote the buckets this process has drained. -/
def promoteDrained (self : WorkerId) (buckets : List BucketModel) : List Nat → Async Unit
  | [] => pure ()
  | id :: rest =>
    match (buckets.find? (fun bucket => bucket.id = id)).bind (·.successorId) with
    | none => promoteDrained self buckets rest
    | some successor => do
      let _ ← await (.promoteDrainedBucket id self successor)
      promoteDrained self buckets rest

/-- What the first half of a pass hands to the second. -/
structure Plan where
  readyIds : List WorkerId
  targets : WorkerId → Nat
  balance : Balance

/-- `Worker.reconcile` up to and including the free-bucket loop; `none` when no
worker is ready. -/
def allocate : Async (Option Plan) := do
  let now ← await .now
  await (.deleteExpiredWorkers now)
  let liveWorkers ← await (.getLiveWorkers now)
  let liveIds := liveIds liveWorkers
  let readyIds := readyIds liveWorkers
  let buckets ← await .getBuckets
  reclaim liveIds readyIds buckets
  if readyIds = [] then
    return none
  let buckets ← await .getBuckets
  let targets := targetCounts readyIds buckets.length
  let balance ← assignFree readyIds targets buckets (.ofBuckets readyIds buckets)
  return some { readyIds, targets, balance }

def BucketMoves.bound (moves : BucketMoves) (bucketCount : Nat) : Nat :=
  match moves with
  | .all => bucketCount
  | .limit n => n

/-- The move loop over both states; the outer `break` skips the second. -/
def moveAll (maxBucketMoves : BucketMoves) (plan : Plan) (buckets : List BucketModel) :
    Async (Option Balance) := do
  let maxMoves := maxBucketMoves.bound buckets.length
  match ← moveBuckets plan.readyIds plan.targets maxMoves .idle buckets plan.balance with
  | none => return none
  | some balance =>
    if maxMoves ≤ balance.moves then return some balance
    else moveBuckets plan.readyIds plan.targets maxMoves .active buckets balance

/-- The end of a pass: only this process can attest that its queue is empty. -/
def promoteLocal (self : WorkerId) (buckets : List BucketModel) : Async Unit := do
  if ← await .backQueueReady then
    promoteDrained self buckets (← await .drainedBuckets)

/-- `Worker.reconcile`; `none` when it raised. -/
def reconcile (maxBucketMoves : BucketMoves) (self : WorkerId) : Async (Option Unit) := do
  match ← allocate with
  | none => return some ()
  | some plan =>
    let buckets ← await .getBuckets
    match ← moveAll maxBucketMoves plan buckets with
    | none => return none
    | some _ =>
      promoteLocal self buckets
      return some ()

/-! ## Coordination and shutdown -/

/-- `Worker.sync_backqueue_assignments`. -/
def syncBackqueueAssignments (self : WorkerId) : Async Unit := do
  let assignments ← await (.getOwnedBuckets self)
  await (.setBuckets assignments)

/-- `Worker.acquire`: the second synchronisation runs outside the lock. -/
def acquire (maxBucketMoves : BucketMoves) (self : WorkerId) : Async Unit := do
  await .acquireLock
  syncBackqueueAssignments self
  let result ← reconcile maxBucketMoves self
  let owned ← await .releaseLock
  if result = some () ∧ owned then
    syncBackqueueAssignments self

/-- `Worker.publish_local_bucket_states`. -/
def publishLocalBucketStates (self : WorkerId) : Async Unit := do
  let states ← await .bucketStates
  await (.syncOwnedBucketStates self states)

/-- `Worker.coordinate`. -/
def coordinate (maxBucketMoves : BucketMoves) (self : WorkerId) : Async Unit := do
  if ← await .backQueueReady then
    publishLocalBucketStates self
  acquire maxBucketMoves self

/-- The loop of `Worker.release`. -/
def releaseBuckets : List BucketModel → Async Unit
  | [] => pure ()
  | bucket :: rest => do
    await (.setBucketAssignment bucket.id none .unassigned)
    releaseBuckets rest

/-- `Worker.release`. -/
def release (self : WorkerId) : Async Unit := do
  await .acquireLock
  let buckets ← await (.getOwnedBuckets self)
  releaseBuckets buckets
  await (.deleteWorker self)
  let _ ← await .releaseLock

end Linksurf
