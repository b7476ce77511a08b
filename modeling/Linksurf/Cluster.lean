import Linksurf.Accounting
import Linksurf.Pass
import Linksurf.Pool

/-!
# Workers around one database

Every worker is a process: its back queue and event loop, its status, and at
most one coordination and one shutdown coroutine. All share the database, a
clock and the `buckets` lock. The lock is freed by its holder, when the holder
is cancelled or fails, or when its TTL runs out, which may be at any time.
-/
namespace Linksurf

open Coroutine Monitor Pool

/-- The heartbeat keeps at most one coordination task; `release` runs on stop. -/
inductive Role where
  | coordination | shutdown
  deriving DecidableEq

structure ThreadId where
  worker : WorkerId
  role : Role
  deriving DecidableEq

/-- Before the first `upsert`, while the process runs, and after it exited. -/
inductive Stage where
  | new | running | stopped
  deriving DecidableEq

structure Process where
  node : Node := .initial
  status : WorkerStatus := .ready
  stage : Stage := .new

structure Shared where
  db : Database
  now : Time
  lock : Option ThreadId
  processes : WorkerId → Process

namespace Shared

def setProcess (s : Shared) (worker : WorkerId) (process : Process) : Shared :=
  { s with processes := Function.update s.processes worker process }

def setNode (s : Shared) (worker : WorkerId) (node : Node) : Shared :=
  s.setProcess worker { s.processes worker with node }

/-- The event loop's general lock is free. -/
def generalFree (s : Shared) (worker : WorkerId) : Prop :=
  ((s.processes worker).node.tasks.locks .general).holder = none

instance (s : Shared) (worker : WorkerId) : Decidable (s.generalFree worker) :=
  inferInstanceAs (Decidable (_ = none))

/-- One operation of a protocol coroutine; `none` while it has to wait. -/
def execute (lib : Externals) (t : ThreadId) : (call : Call) → Shared → Option (call.Reply × Shared)
  | .now, s => some (s.now, s)
  | .acquireLock, s => if s.lock = none then some ((), { s with lock := some t }) else none
  | .releaseLock, s => if s.lock = some t then some (true, { s with lock := none }) else some (false, s)
  | .backQueueReady, s => some ((s.processes t.worker).node.queue.ready, s)
  | .bucketStates, s =>
    if s.generalFree t.worker then some ((s.processes t.worker).node.queue.bucketStates lib, s) else none
  | .drainedBuckets, s =>
    if s.generalFree t.worker then some ((s.processes t.worker).node.queue.drainedBuckets lib, s) else none
  | .setBuckets assignments, s =>
    let node := (s.processes t.worker).node
    some ((), s.setNode t.worker { node with queue := node.queue.setBuckets assignments })
  | call, s => (s.db.execute call).map (fun (reply, db) => (reply, { s with db }))

end Shared

abbrev Cluster := Pool.State ThreadId Shared Call Call.Reply

def Cluster.initial : Cluster := ⟨⟨⟨.empty, .empty⟩, 0, none, fun _ => {}⟩, fun _ => none⟩

/-- What the event loop does by itself; the rest is done to it by the worker. -/
def Action.internal : Action → Bool
  | .tick _ | .drain | .setBuckets _ => false
  | _ => true

inductive ClusterAction where
  | tick (now : Time)
  /-- One upsert of `ensure_bucket_records`. -/
  | ensure (bucket : Nat)
  /-- `upsert` writes the status and the time it was called with. -/
  | upsert (worker : WorkerId) (status : WorkerStatus) (heartbeatAt : Time)
  | coordinate (worker : WorkerId)
  | release (worker : WorkerId)
  /-- A coroutine issues its next operation. -/
  | run (thread : ThreadId)
  /-- A coroutine is cancelled or fails; its `finally` frees the lock. -/
  | abort (thread : ThreadId)
  /-- The TTL of the lock runs out. -/
  | lockExpires
  | markDraining (worker : WorkerId)
  | node (worker : WorkerId) (action : Action)
  /-- The process exits; its local work and its coroutines are gone. -/
  | stop (worker : WorkerId)
  deriving DecidableEq

namespace Cluster

/-- The operation a thread issues when it runs next. -/
def awaits (c : Cluster) (t : ThreadId) : Option Call :=
  match c.threads t with
  | some (.await call _) => some call
  | _ => none

theorem awaits_eq {c : Cluster} {t : ThreadId} {call : Call} (h : c.awaits t = some call) :
    ∃ k, c.threads t = some (.await call k) := by
  unfold awaits at h
  split at h
  · rename_i call' k he
    cases h
    exact ⟨k, he⟩
  · cases h

def advanceClock (s : Shared) (now : Time) : Shared :=
  { s with now, processes := fun w => { s.processes w with node := { (s.processes w).node with now } } }

def register (s : Shared) (worker : WorkerId) (status : WorkerStatus) (heartbeatAt : Time) : Shared :=
  { s.setProcess worker { s.processes worker with stage := .running } with
    db := { s.db with
      workers := s.db.workers.upsertWorker ⟨worker, status, heartbeatAt + WORKER_LEASE_SECONDS⟩ } }

/-- A worker may start this coroutine. -/
def idle (c : Cluster) (t : ThreadId) : Bool :=
  (c.shared.processes t.worker).stage = .running ∧ (c.threads t).isNone

def step (lib : Externals) (moves : BucketMoves) (c : Cluster) : ClusterAction → Option Cluster
  | .tick now => if c.shared.now ≤ now then some { c with shared := advanceClock c.shared now } else none
  | .ensure bucket => some { c with shared := { c.shared with
      db := { c.shared.db with buckets := c.shared.db.buckets.ensureOne bucket } } }
  | .upsert worker status heartbeatAt =>
    let process := c.shared.processes worker
    if process.stage ≠ .stopped ∧ heartbeatAt ≤ c.shared.now ∧ (status = .ready ∨ status = process.status) then
      some { c with shared := register c.shared worker status heartbeatAt }
    else none
  | .coordinate worker =>
    if c.idle ⟨worker, .coordination⟩ then
      some (c.spawn ⟨worker, .coordination⟩ (Linksurf.coordinate moves worker))
    else none
  | .release worker =>
    if c.idle ⟨worker, .shutdown⟩ then some (c.spawn ⟨worker, .shutdown⟩ (Linksurf.release worker)) else none
  | .run thread => c.run (Shared.execute lib thread) thread
  | .abort thread =>
    if (c.threads thread).isSome then
      some { shared := if c.shared.lock = some thread then { c.shared with lock := none } else c.shared
             threads := Function.update c.threads thread none }
    else none
  | .lockExpires => some { c with shared := { c.shared with lock := none } }
  | .markDraining worker =>
    let process := c.shared.processes worker
    some { c with shared := c.shared.setProcess worker { process with
      status := .draining, node := { process.node with queue := { process.node.queue with draining := true } } } }
  | .node worker action =>
    if action.internal ∧ (c.shared.processes worker).stage ≠ .stopped then
      ((c.shared.processes worker).node.step lib action).map
        (fun node => { c with shared := c.shared.setNode worker node })
    else none
  | .stop worker => some {
      shared := c.shared.setProcess worker { stage := .stopped }
      threads := fun t => if t.worker = worker then none else c.threads t }

/-- What a step that is nobody's operation does to the shared state. -/
inductive Changed (lib : Externals) (s : Shared) : ClusterAction → Shared → Prop
  | lock {action} (lock : Option ThreadId) : Changed lib s action { s with lock }
  | tick {now} (h : s.now ≤ now) : Changed lib s (.tick now) (advanceClock s now)
  | ensure {bucket} :
    Changed lib s (.ensure bucket) { s with db := { s.db with buckets := s.db.buckets.ensureOne bucket } }
  | upsert {worker status heartbeatAt} (hstage : (s.processes worker).stage ≠ .stopped) :
    Changed lib s (.upsert worker status heartbeatAt) (register s worker status heartbeatAt)
  | draining {worker} : Changed lib s (.markDraining worker) (s.setProcess worker { s.processes worker with
      status := .draining
      node := { (s.processes worker).node with queue := { (s.processes worker).node.queue with draining := true } } })
  | node {worker action node} (hinternal : action.internal = true) (hstage : (s.processes worker).stage ≠ .stopped)
    (h : (s.processes worker).node.step lib action = some node) :
    Changed lib s (.node worker action) (s.setProcess worker { s.processes worker with node })
  | stop {worker} : Changed lib s (.stop worker) (s.setProcess worker { stage := .stopped })

theorem step_changed {lib : Externals} {moves : BucketMoves} {c c' : Cluster} {action : ClusterAction}
    (hstep : c.step lib moves action = some c') (hnot : ∀ t, action ≠ .run t) :
    Changed lib c.shared action c'.shared := by
  cases action with
  | run t => exact absurd rfl (hnot t)
  | tick now =>
    simp only [Cluster.step] at hstep
    split at hstep <;> cases hstep
    rename_i h
    exact .tick h
  | upsert worker status heartbeatAt =>
    simp only [Cluster.step] at hstep
    split at hstep <;> cases hstep
    rename_i h
    exact .upsert h.1
  | node worker action =>
    simp only [Cluster.step] at hstep
    split at hstep
    · rename_i h
      obtain ⟨node, hnode, rfl⟩ := Option.map_eq_some_iff.mp hstep
      exact .node h.1 h.2 hnode
    · cases hstep
  | coordinate | release =>
    simp only [Cluster.step] at hstep
    split at hstep <;> cases hstep
    exact .lock _
  | abort t =>
    simp only [Cluster.step] at hstep
    split at hstep <;> cases hstep
    dsimp only
    split
    · exact .lock none
    · exact .lock _
  | lockExpires => cases hstep; exact .lock none
  | ensure => cases hstep; exact .ensure
  | markDraining => cases hstep; exact .draining
  | stop => cases hstep; exact .stop

end Cluster

end Linksurf
