import Linksurf.Cluster
import Linksurf.Components
import Linksurf.Procedure

/-!
# The application

`start` and `shutdown` of `linksurf/application.py` with the heartbeat and the
methods of `Worker` and `Services` they await. Whatever two awaits leave
between them is an operation, and so is every access to an attribute another
task can change. An awaited call may fail, and may have had its effect then.
-/
namespace Linksurf.Application

open Coroutine Monitor
open Pipeline (ComponentName)

def HEARTBEAT_INTERVAL_SECONDS : Time := 60
def SHUTDOWN_DRAIN_TIMEOUT_SECONDS : Time := 120

/-- Exceptions, as the handlers tell them apart. -/
inductive Failure where
  | lockAcquisition | other
  deriving DecidableEq

/-- What the application awaits and may find failed. -/
inductive Awaitable where
  | brokerConnect
  | brokerLoop
  | brokerDisconnect
  | serviceStart (service : String)
  | serviceStop (service : String)
  | extensionStart (extension : String)
  | extensionStop (extension : String)
  | componentStart (component : ComponentName)
  | componentStop (component : ComponentName)
  | ensureBucketRecord (bucket : Nat)
  | upsertWorker (status : WorkerStatus) (heartbeatAt : Time)
  /-- The end of a coroutine of the worker that was begun. -/
  | finished (role : Role)
  | seedLock
  | seedUrl (address : String)
  | seedUnlock
  deriving DecidableEq

/-- The operations of the application. -/
inductive AppCall where
  | await (awaitable : Awaitable)
  /-- `worker.coordinate()` or `worker.release()` is called. -/
  | begin (role : Role)
  /-- The clock and `worker.status`. -/
  | membership
  | isStopping
  | setStopping
  | servicesReady
  | setServicesReady (ready : Bool)
  | backQueueReady
  | setBackQueueReady (ready : Bool)
  | markDraining
  | waitForDrain (timeoutSeconds : Time)
  /-- The result of `wait_for_drain`. -/
  | drained (task : TaskId)
  | createHeartbeat
  /-- `cancel`, unless `_heartbeat_task` is `None`. -/
  | cancelHeartbeat
  /-- The end of the cancelled task; the attribute is `None` then. -/
  | joinHeartbeat
  | cancelCoordination
  | joinCoordination
  | sleep (seconds : Time)
  /-- The end of a turn of `heartbeat`. -/
  | createCoordination
  deriving DecidableEq

@[reducible] def AppCall.Reply : AppCall → Type
  | .await _ => Except Failure Unit
  | .membership => Time × WorkerStatus
  | .waitForDrain _ => TaskId
  | .isStopping | .servicesReady | .backQueueReady | .drained _ | .cancelHeartbeat | .cancelCoordination => Bool
  | _ => Unit

abbrev Task (α : Type) := Proc AppCall AppCall.Reply Failure Unit α

abbrev perform (call : AppCall) : Task call.Reply := Proc.call call

def await (awaitable : Awaitable) : Task Unit := do
  Proc.value (← perform (.await awaitable))

/-- One after the other; the first failure is raised. -/
def awaitAll : List Awaitable → Task Unit
  | [] => pure ()
  | awaitable :: rest => do
    await awaitable
    awaitAll rest

/-- One after the other; failures are logged. -/
def tryAll : List Awaitable → Task Unit
  | [] => pure ()
  | awaitable :: rest => do
    let _ ← Proc.attempt (await awaitable)
    tryAll rest

/-- What an application is made of besides its components. -/
structure Setup where
  services : List String
  extensions : List String
  seed : List String

/-- `self.components`. -/
def components : List ComponentName := [.frontier, .downloader, .parser, .storage]

/-! ## Services -/

/-- `Services.connect`. -/
def connect (services : List String) : Task Unit := do
  perform (.setServicesReady false)
  awaitAll (services.map .serviceStart)
  perform (.setServicesReady true)

/-- `Services.disconnect`. -/
def disconnect (services : List String) : Task Unit := do
  let result ← Proc.attempt (awaitAll (services.map .serviceStop))
  perform (.setServicesReady false)
  Proc.value result

/-! ## Worker -/

/-- `Worker.upsert`. -/
def upsert : Task Unit := do
  let (now, status) ← perform .membership
  await (.upsertWorker status now)

/-- `await self.coordinate()`. -/
def coordinate : Task Unit := do
  perform (.begin .coordination)
  await (.finished .coordination)

/-- `Worker.on_start` with `refresh`. -/
def workerOnStart : Task Unit := do
  awaitAll ((List.range' 1 BUCKET_COUNT).map .ensureBucketRecord)
  upsert
  coordinate

/-- `Worker.on_stop`. -/
def workerOnStop : Task Unit := do
  perform (.begin .shutdown)
  await (.finished .shutdown)

/-! ## Application -/

/-- The drain of `shutdown`: whether it succeeded. -/
def drain : Task Bool := do
  perform .markDraining
  let _ ← Proc.attempt upsert
  let task ← perform (.waitForDrain SHUTDOWN_DRAIN_TIMEOUT_SECONDS)
  perform (.drained task)

/-- `release_worker` of `shutdown`. -/
def releaseWorker : Task Bool := do
  let servicesReady ← perform .servicesReady
  let backQueueReady ← perform .backQueueReady
  if servicesReady && backQueueReady then drain else pure (servicesReady && !backQueueReady)

def cancelHeartbeat : Task Unit := do
  if ← perform .cancelHeartbeat then
    perform .joinHeartbeat

def cancelCoordination : Task Unit := do
  if ← perform .cancelCoordination then
    perform .joinCoordination

/-- `shutdown` after the tasks of the application are over. -/
def stopAll (setup : Setup) (releaseWorker : Bool) : Task Unit := do
  tryAll (setup.extensions.map .extensionStop)
  tryAll (components.map .componentStop)
  let _ ← Proc.attempt (await .brokerDisconnect)
  if ← perform .backQueueReady then
    perform (.setBackQueueReady false)
  if releaseWorker then
    workerOnStop
  if ← perform .servicesReady then
    disconnect setup.services

/-- `Linksurf.shutdown`. -/
def shutdown (setup : Setup) : Task Unit := do
  if ← perform .isStopping then
    pure ()
  else
    perform .setStopping
    let releaseWorker ← releaseWorker
    cancelHeartbeat
    cancelCoordination
    stopAll setup releaseWorker

/-- `Linksurf.seed`. -/
def seed (addresses : List String) : Task Unit := do
  match ← Proc.attempt (do
      await .seedLock
      tryAll (addresses.map .seedUrl)
      await .seedUnlock) with
  | .ok () => pure ()
  | .error .lockAcquisition => pure ()
  | .error .other => Proc.raise .other

/-- `start` once the worker and the back queue started. A component that fails
to start, and a lost seed lock, end it without `shutdown`. -/
def serve (setup : Setup) : Task Unit := do
  awaitAll (components.map .componentStart)
  seed setup.seed
  let _ ← Proc.attempt (await .brokerLoop)
  shutdown setup

/-- `start` once the services are connected. -/
def join (setup : Setup) : Task Unit := do
  perform .createHeartbeat
  awaitAll (setup.extensions.map .extensionStart)
  match ← Proc.attempt workerOnStart with
  | .error _ => shutdown setup
  | .ok () => do
    perform (.setBackQueueReady true)
    serve setup

/-- `Linksurf.start`. -/
def start (setup : Setup) : Task Unit := do
  match ← Proc.attempt (await .brokerConnect) with
  | .error _ => shutdown setup
  | .ok () =>
    match ← Proc.attempt (connect setup.services) with
    | .error _ => shutdown setup
    | .ok () => join setup

/-- One turn of `heartbeat`. -/
def beat : Task Unit := do
  perform (.sleep HEARTBEAT_INTERVAL_SECONDS)
  match ← Proc.attempt upsert with
  | .error _ => pure ()
  | .ok () => perform .createCoordination

/-! ## Processes -/

/-- What a coroutine of the application has left to do. -/
abbrev Rest := Coro AppCall AppCall.Reply (Except Failure Unit × Unit)

/-- `_heartbeat_task`. -/
inductive Heartbeat where
  | none
  | running (rest : Rest)
  | cancelled (rest : Rest)
  | over

/-- The attributes of an application and its brokers' `_stop_event`, which is
missing until the broker connected. -/
structure App where
  main : Rest
  heartbeat : Heartbeat := .none
  coordinationTask : Bool := false
  stopping : Bool := false
  servicesReady : Bool := false
  stopEvent : Option Bool := none
  /-- The Downloader created its loops. -/
  downloading : Bool := false

structure Processes where
  cluster : Cluster
  apps : WorkerId → App

def Processes.initial (setup : WorkerId → Setup) : Processes :=
  ⟨.initial, fun w => { main := start (setup w) () }⟩

/-- How an awaited call ends. A failed call may have been applied. -/
inductive Outcome where
  | done
  | failed (failure : Failure) (applied : Bool)
  deriving DecidableEq

namespace Outcome

def result : Outcome → Except Failure Unit
  | .done => .ok ()
  | .failed failure _ => .error failure

def applied : Outcome → Bool
  | .done => true
  | .failed _ applied => applied

end Outcome

inductive ProcessAction where
  | tick (now : Time)
  /-- `start` goes on. -/
  | main (worker : WorkerId) (outcome : Outcome)
  /-- The heartbeat goes on, or ends when it was cancelled. -/
  | beat (worker : WorkerId) (outcome : Outcome)
  /-- SIGINT or SIGTERM arrives. -/
  | signal (worker : WorkerId)
  | run (thread : ThreadId)
  | abort (thread : ThreadId)
  | lockExpires
  | node (worker : WorkerId) (action : Action)
  /-- The process exits. -/
  | kill (worker : WorkerId)
  deriving DecidableEq

namespace Processes

variable (lib : Externals) (moves : BucketMoves)

def process (s : Processes) (w : WorkerId) : Process := s.cluster.shared.processes w

def setApp (s : Processes) (w : WorkerId) (app : App) : Processes := { s with apps := Function.update s.apps w app }

/-- What happens to the cluster alone. -/
def act (s : Processes) (action : ClusterAction) : Option Processes :=
  (s.cluster.step lib moves action).map (fun cluster => { s with cluster })

/-- A waiting call can end this way. -/
def canEnd (s : Processes) (w : WorkerId) (outcome : Outcome) : Awaitable → Bool
  | .brokerLoop => outcome ≠ .done || (s.apps w).stopEvent = some true
  | .finished role => (s.cluster.threads ⟨w, role⟩).isNone
  | _ => true

/-- The effect of an awaited call. -/
def apply (s : Processes) (w : WorkerId) : Awaitable → Processes
  | .brokerConnect => s.setApp w { s.apps w with stopEvent := some false }
  | .componentStart .downloader => s.setApp w { s.apps w with downloading := true }
  | .ensureBucketRecord bucket => { s with cluster.shared.db.buckets := s.cluster.shared.db.buckets.ensureOne bucket }
  | .upsertWorker status heartbeatAt =>
    { s with cluster.shared := Cluster.register s.cluster.shared w status heartbeatAt }
  | _ => s

def ended (s : Processes) (w : WorkerId) (outcome : Outcome) (awaitable : Awaitable) : Processes :=
  if outcome.applied then s.apply w awaitable else s

/-- `mark_draining`. -/
def markDraining (s : Processes) (w : WorkerId) : Processes :=
  { s with cluster.shared := s.cluster.shared.setProcess w { s.process w with
      status := .draining
      node := { (s.process w).node with queue := { (s.process w).node.queue with draining := true } } } }

def spawn (s : Processes) (w : WorkerId) : Role → Processes
  | .coordination => { s with cluster := s.cluster.spawn ⟨w, .coordination⟩ (Linksurf.coordinate moves w) }
  | .shutdown => { s with cluster := s.cluster.spawn ⟨w, .shutdown⟩ (Linksurf.release w) }

/-- The test at the end of a turn of `heartbeat`. -/
def mayCoordinate (s : Processes) (w : WorkerId) : Bool :=
  !(s.apps w).stopping && (s.process w).node.queue.ready &&
    (!(s.apps w).coordinationTask || (s.cluster.threads ⟨w, .coordination⟩).isNone)

/-- One operation of an application; `none` while it has to wait. -/
def answer (w : WorkerId) (outcome : Outcome) : (call : AppCall) → Processes → Option (call.Reply × Processes)
  | .await awaitable, s =>
    if s.canEnd w outcome awaitable then some (outcome.result, s.ended w outcome awaitable) else none
  | .begin role, s => some ((), s.spawn moves w role)
  | .membership, s => some ((s.cluster.shared.now, (s.process w).status), s)
  | .isStopping, s => some ((s.apps w).stopping, s)
  | .setStopping, s => some ((), s.setApp w { s.apps w with stopping := true })
  | .servicesReady, s => some ((s.apps w).servicesReady, s)
  | .setServicesReady ready, s => some ((), s.setApp w { s.apps w with servicesReady := ready })
  | .backQueueReady, s => some ((s.process w).node.queue.ready, s)
  | .setBackQueueReady ready, s => (s.act lib moves (.node w (.setReady ready))).map (fun s => ((), s))
  | .markDraining, s => some ((), s.markDraining w)
  | .waitForDrain timeout, s =>
    (s.act lib moves (.node w (.waitForDrain timeout))).map (fun t => ((s.process w).node.tasks.pcs.length, t))
  | .drained task, s =>
    match (s.process w).node.tasks.pcs[task]? with
    | some .drained => some (true, s)
    | some .timedOut => some (false, s)
    | _ => none
  | .createHeartbeat, s => some ((), s.setApp w { s.apps w with heartbeat := .running (Application.beat ()) })
  | .cancelHeartbeat, s =>
    match (s.apps w).heartbeat with
    | .none => some (false, s)
    | .running rest => some (true, s.setApp w { s.apps w with heartbeat := .cancelled rest })
    | _ => some (true, s)
  | .joinHeartbeat, s =>
    match (s.apps w).heartbeat with
    | .over => some ((), s.setApp w { s.apps w with heartbeat := .none })
    | _ => none
  -- a cancelled coroutine of the worker ends with `abort`, at any later time
  | .cancelCoordination, s => some ((s.apps w).coordinationTask, s)
  | .joinCoordination, s =>
    if (s.cluster.threads ⟨w, .coordination⟩).isNone then
      some ((), s.setApp w { s.apps w with coordinationTask := false })
    else none
  | .sleep _, s => some ((), s)
  | .createCoordination, s =>
    if s.mayCoordinate w then some ((), (s.spawn moves w .coordination).setApp w { s.apps w with coordinationTask := true })
    else some ((), s)

/-- `start` issues its next operation. -/
def stepMain (s : Processes) (w : WorkerId) (outcome : Outcome) : Option Processes :=
  match (s.apps w).main with
  | .ret _ => none
  | .await call k => (s.answer lib moves w outcome call).map (fun (reply, t) => t.setApp w { t.apps w with main := k reply })

/-- The heartbeat issues its next operation. A cancelled one is not resumed, but
what it awaited may still be applied. -/
def stepBeat (s : Processes) (w : WorkerId) (outcome : Outcome) : Option Processes :=
  match (s.apps w).heartbeat with
  | .running (.ret _) => some (s.setApp w { s.apps w with heartbeat := .running (Application.beat ()) })
  | .running (.await call k) =>
    (s.answer lib moves w outcome call).map (fun (reply, t) => t.setApp w { t.apps w with heartbeat := .running (k reply) })
  | .cancelled (.await (.await awaitable) _) =>
    let t := s.ended w outcome awaitable
    some (t.setApp w { t.apps w with heartbeat := .over })
  | .cancelled _ => some (s.setApp w { s.apps w with heartbeat := .over })
  | _ => none

/-- The process did not exit. -/
def alive (s : Processes) (w : WorkerId) : Prop := (s.process w).stage ≠ .stopped

instance (s : Processes) (w : WorkerId) : Decidable (s.alive w) := inferInstanceAs (Decidable (_ ≠ _))

/-- What tasks of the event loop do without the application. -/
def ofTask (downloading : Bool) : Action → Bool
  | .run _ _ | .grant _ => true
  | .loop => downloading
  | _ => false

def step (s : Processes) : ProcessAction → Option Processes
  | .tick now => s.act lib moves (.tick now)
  | .main w outcome => if s.alive w then s.stepMain lib moves w outcome else none
  | .beat w outcome => if s.alive w then s.stepBeat lib moves w outcome else none
  -- without a `_stop_event` the handler raises after `mark_draining`
  | .signal w =>
    if s.alive w then
      some ((s.markDraining w).setApp w { s.apps w with stopEvent := (s.apps w).stopEvent.map (fun _ => true) })
    else none
  | .run thread => s.act lib moves (.run thread)
  | .abort thread => s.act lib moves (.abort thread)
  | .lockExpires => s.act lib moves .lockExpires
  | .node w action => if ofTask (s.apps w).downloading action then s.act lib moves (.node w action) else none
  | .kill w => (s.act lib moves (.stop w)).map (fun t => t.setApp w { main := .ret (.ok (), ()) })

end Processes

end Linksurf.Application
