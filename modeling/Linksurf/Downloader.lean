import Linksurf.BackQueue
import Linksurf.Execution
import Linksurf.Monitor

/-!
# One worker's tasks

The handler loops of the Downloader (`next`, then `download`), the cleanup tasks
`report` creates, and `wait_for_drain`, interleaved on one event loop. A program
point is where a task awaits; `advance` is what it does from there to its next
await. The blocks under `self.lock` and under a domain's lock are regions, and a
point that only waits to enter a block belongs to its region too.

A lock that is free is taken without yielding; here other tasks may still run
between taking it and the first statement under it, so the model has every
interleaving of the code and some more.
-/
namespace Linksurf

open Monitor

inductive LockName where
  | general
  | domain (lock : LockId)
  deriving DecidableEq

/-- Who awaits `_enqueue_new_domain`. -/
inductive Caller where
  | next | cleanup
  deriving DecidableEq

/-- The awaits of `next`, `_enqueue_new_domain`, `download`, `report`,
`complete`, `_cleanup_domain` and `wait_for_drain`. -/
inductive Pc where
  -- `next`
  | next
  | beforeScan
  | scan
  | sleeping
  -- `_enqueue_new_domain`
  | enqueueStart
  | enqueue (caller : Caller)
  | excludedDomains (caller : Caller) (current : List String)
  | distinctDomains (caller : Caller) (excluded : List String) (fetchable : List Nat)
  | domainUrls (caller : Caller) (domain : String)
  | putting (caller : Caller) (urls : List UrlModel)
  | domainReleaseTime (caller : Caller) (domain : String) (urls : List UrlModel)
  -- `download`
  | handed (payload : Payload) (lock : LockId)
  | started (payload : Payload) (lock : LockId)
  | domainLock (payload : Payload) (lock : LockId)
  | fetching (payload : Payload) (lock : LockId)
  | reporting (payload : Payload) (lock : LockId) (fetched : Fetched)
  | completing (payload : Payload) (lock : Option LockId)
  -- `_cleanup_domain`
  | cleanup (domain : String)
  | cleanupDomain (domain : String) (lock : LockId)
  | cleanupGeneral (domain : String) (lock : LockId)
  -- `wait_for_drain`
  | waitForDrain (deadline : Time)
  | waitLocked (deadline : Time)
  | waitSleeping (deadline : Time)
  | drained
  | timedOut
  | finished
  deriving DecidableEq

/-- The lock regions a point belongs to. -/
def Pc.region : Pc → List LockName
  | .scan => [.general]
  | .enqueue _ => [.general]
  | .excludedDomains _ _ => [.general]
  | .distinctDomains _ _ _ => [.general]
  | .domainUrls _ _ => [.general]
  | .putting _ _ => [.general]
  | .domainReleaseTime _ _ _ => [.general]
  | .domainLock _ lock => [.domain lock]
  | .fetching _ lock => [.domain lock]
  | .reporting _ lock _ => [.domain lock]
  | .completing _ (some lock) => [.domain lock, .general]
  | .completing _ none => [.general]
  | .cleanupDomain _ lock => [.domain lock]
  | .cleanupGeneral _ lock => [.domain lock, .general]
  | .waitLocked _ => [.general]
  | _ => []

/-- The locks certainly held at a point. -/
def Pc.inside : Pc → List LockName
  | .excludedDomains _ _ => [.general]
  | .distinctDomains _ _ _ => [.general]
  | .domainUrls _ _ => [.general]
  | .putting _ _ => [.general]
  | .domainReleaseTime _ _ _ => [.general]
  | .fetching _ lock => [.domain lock]
  | .reporting _ lock _ => [.domain lock]
  | .completing _ (some lock) => [.domain lock]
  | .cleanupGeneral _ lock => [.domain lock]
  | _ => []

/-- What an await came back with. -/
inductive Reply where
  | done
  | raised
  | domains (domains : List String)
  | urls (snapshot : List UrlModel)
  | releaseTime (time : Option Time)
  | fetched (fetched : Fetched)
  deriving DecidableEq

/-- `_enqueue_new_domain` returned. -/
def Caller.return : Caller → Bool → Pc
  | .next, true => .next
  | .next, false => .beforeScan
  | .cleanup, _ => .finished

/-- `_enqueue_new_domain` raised: `next` raises too and the loop pulls again. -/
def Caller.raise : Caller → Pc
  | .next => .next
  | .cleanup => .finished

/-- The queue, the task's next point and the tasks it created. -/
structure Advance where
  queue : BackQueue
  pc : Pc
  created : List Pc := []

/-- What a task does with a reply, up to its next await. -/
def advance (lib : Externals) (locked : LockId → Bool) (now : Time) (q : BackQueue) :
    Pc → Reply → Option Advance
  -- next
  | .next, .done =>
    if q.queues.size < MAX_ACTIVE_DOMAINS ∧ ¬ q.draining then some ⟨q, .enqueue .next, []⟩
    else some ⟨q, .scan, []⟩
  | .beforeScan, .done => some ⟨q, .scan, []⟩
  | .scan, .done =>
    match q.scan now locked with
    | .found domain payload rest lock => some ⟨q.take lib now domain rest, .handed payload lock, []⟩
    | .nothing => some ⟨q, .sleeping, []⟩
    | .keyError => some ⟨q, .next, []⟩
  | .sleeping, .done => some ⟨q, .next, []⟩
  -- _enqueue_new_domain
  | .enqueueStart, .done =>
    if q.draining then some ⟨q, Caller.cleanup.return false, []⟩ else some ⟨q, .enqueue .cleanup, []⟩
  | .enqueue caller, .done =>
    if MAX_ACTIVE_DOMAINS ≤ q.queues.size then some ⟨q, caller.return false, []⟩
    else some ⟨q, .excludedDomains caller q.queues.keys, []⟩
  | .excludedDomains caller current, reply =>
    let excluded := match reply with
      | .domains domains => some domains
      | .raised => some []
      | _ => none
    excluded.map (fun excluded =>
      if q.fetchableBuckets = [] then ⟨q, caller.return false, []⟩
      else ⟨q, .distinctDomains caller (current ++ excluded) q.fetchableBuckets, []⟩)
  | .distinctDomains caller excluded fetchable, .urls snapshot =>
    match getDistinctDomains snapshot excluded fetchable 1 with
    | [] => some ⟨q, caller.return false, []⟩
    | domain :: _ => some ⟨q, .domainUrls caller domain, []⟩
  | .distinctDomains caller _ _, .raised => some ⟨q, caller.raise, []⟩
  | .domainUrls caller domain, .urls snapshot =>
    match getDomainUrls snapshot domain MAX_URLS_PER_DOMAIN with
    | [] => some ⟨q, caller.return false, []⟩
    | url :: urls => some ⟨q, .putting caller (url :: urls), []⟩
  | .domainUrls caller _, .raised => some ⟨q, caller.raise, []⟩
  | .putting caller [], .done => some ⟨q, caller.return true, []⟩
  | .putting caller (u :: urls), .done =>
    match lib.url u.address with
    | none => some ⟨q, caller.raise, []⟩
    | some url =>
      let q := q.put ⟨url, u.priority⟩
      if q.releaseTimes.get? url.domain = none then some ⟨q, .domainReleaseTime caller url.domain urls, []⟩
      else some ⟨q, .putting caller urls, []⟩
  -- `release_time or time.time()`: a cached zero counts as none
  | .domainReleaseTime caller domain urls, .releaseTime (some time) =>
    some ⟨q.setReleaseTime domain (if time = 0 then now else time), .putting caller urls, []⟩
  | .domainReleaseTime caller domain urls, .releaseTime none =>
    some ⟨q.setReleaseTime domain now, .putting caller urls, []⟩
  | .domainReleaseTime caller domain urls, .raised =>
    some ⟨q.setReleaseTime domain now, .putting caller urls, []⟩
  -- download
  | .handed payload lock, .done => some ⟨q, .started payload lock, []⟩
  | .handed payload _, .raised => some ⟨q, .completing payload none, []⟩
  | .started payload lock, .done => some ⟨q, .domainLock payload lock, []⟩
  | .domainLock payload lock, .done => some ⟨q, .fetching payload lock, []⟩
  | .fetching payload lock, .fetched fetched => some ⟨q, .reporting payload lock fetched, []⟩
  | .reporting payload lock fetched, .done =>
    let domain := payload.url.domain
    some ⟨q.setReleaseTime domain (now + fetched.delaySeconds), .completing payload (some lock),
      if q.cleanupDue domain fetched then [.cleanup domain] else []⟩
  | .completing payload _, .done => some ⟨q.complete lib payload, .next, []⟩
  -- _cleanup_domain
  | .cleanup domain, .done =>
    match q.locks.get? domain with
    | none => some ⟨q, .finished, []⟩
    | some lock => some ⟨q, .cleanupDomain domain lock, []⟩
  | .cleanupDomain domain lock, .done => some ⟨q, .cleanupGeneral domain lock, []⟩
  | .cleanupGeneral domain _, .done => some ⟨q.removeDomain domain, .enqueueStart, []⟩
  -- wait_for_drain
  | .waitForDrain deadline, .done =>
    if now < deadline then some ⟨q, .waitLocked deadline, []⟩ else some ⟨q, .timedOut, []⟩
  | .waitLocked deadline, .done =>
    if q.hasLocalWork then some ⟨q, .waitSleeping deadline, []⟩ else some ⟨q, .drained, []⟩
  | .waitSleeping deadline, .done => some ⟨q, .waitForDrain deadline, []⟩
  | _, _ => none

/-- One worker's event loop. -/
structure Node where
  queue : BackQueue
  tasks : Tasks Pc LockName
  now : Time

def Node.initial : Node := ⟨{}, .empty, 0⟩

inductive Action where
  /-- Time passes. -/
  | tick (now : Time)
  /-- A task runs from its await to the next one. -/
  | run (task : TaskId) (reply : Reply)
  /-- The first in line for a free lock is woken. -/
  | grant (lock : LockName)
  /-- A handler loop of the Downloader is created. -/
  | loop
  /-- `wait_for_drain` is called; the application drains first. -/
  | waitForDrain (timeoutSeconds : Time)
  | drain
  | setBuckets (assignments : List BucketModel)
  | setReady (ready : Bool)
  deriving DecidableEq

def Node.runTask (lib : Externals) (n : Node) (task : TaskId) (reply : Reply) : Option Node := do
  let pc ← n.tasks.pcs[task]?
  if n.tasks.entitled Pc.region task pc then
    let a ← advance lib (fun lock => (n.tasks.locks (.domain lock)).locked) n.now n.queue pc reply
    return { n with queue := a.queue, tasks := (n.tasks.move Pc.region task pc a.pc).spawn a.created }
  else none

def Node.step (lib : Externals) (n : Node) : Action → Option Node
  | .tick now => if n.now ≤ now then some { n with now } else none
  | .run task reply => n.runTask lib task reply
  | .grant lock => some { n with tasks := n.tasks.grant lock }
  | .loop => some { n with tasks := n.tasks.spawn [.next] }
  | .waitForDrain timeout =>
    if n.queue.draining then some { n with tasks := n.tasks.spawn [.waitForDrain (n.now + timeout)] } else none
  | .drain => some { n with queue := { n.queue with draining := true } }
  | .setBuckets assignments => some { n with queue := n.queue.setBuckets assignments }
  | .setReady ready => some { n with queue := { n.queue with ready } }

end Linksurf
