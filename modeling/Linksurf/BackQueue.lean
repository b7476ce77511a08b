import Linksurf.Buckets
import Linksurf.Dict
import Linksurf.Urls

/-!
# The back queue

The dictionaries of `BackQueue` and the synchronous sections its methods are
made of, each from one await to the next. A lock object is its number; which
tasks hold or await it is kept with the tasks.
-/
namespace Linksurf

open Dicts (Dict)

def DEFAULT_DOMAIN_DELAY : Time := 1
def MAX_ACTIVE_DOMAINS : Nat := 100
def MAX_URLS_PER_DOMAIN : Nat := 5
def LOCK_TRIGGERING_STATUS_CODES : List Nat := [403, 429, 500, 502, 503]

/-- A lock object of `asyncio`. -/
abbrev LockId := Nat

structure Payload where
  url : Url
  priority : Int
  deriving DecidableEq

/-- The exception classes a fetch can end with, as `report` tells them apart. -/
inductive FetchException where
  | connectTimeout | readTimeout | read | connect | other
  deriving DecidableEq, Repr

def LOCK_TRIGGERING_EXCEPTIONS : List FetchException := [.connectTimeout, .readTimeout, .read, .connect]

/-- How `fetcher.http` ended; `empty` is a response of `None`. -/
inductive Fetched where
  | response (statusCode : Nat) (elapsedMs : ℚ)
  | empty
  | exception (exception : FetchException)
  deriving DecidableEq

/-- `should_lock` of `report`. -/
def Fetched.shouldLock : Fetched → Bool
  | .response statusCode _ => statusCode ∈ LOCK_TRIGGERING_STATUS_CODES
  | .empty => false
  | .exception e => e ∈ LOCK_TRIGGERING_EXCEPTIONS

/-- `delay_seconds` of `report`. -/
def Fetched.delaySeconds (f : Fetched) : Time :=
  if f.shouldLock then DEFAULT_DOMAIN_DELAY
  else match f with
    | .response _ elapsedMs => elapsedMs / 1000 + DEFAULT_DOMAIN_DELAY
    | _ => DEFAULT_DOMAIN_DELAY

/-- The attributes of a `BackQueue`, besides its general lock. `nextLock` numbers
the next lock object created. -/
structure BackQueue where
  buckets : List Nat := []
  drainingBuckets : List Nat := []
  inFlightBuckets : Dict Nat Nat := .empty
  queues : Dict String (List Payload) := .empty
  releaseTimes : Dict String Time := .empty
  locks : Dict String LockId := .empty
  nextLock : LockId := 0
  ready : Bool := false
  draining : Bool := false

namespace BackQueue

/-- `set_buckets` with persisted assignments. -/
def setBuckets (q : BackQueue) (assignments : List BucketModel) : BackQueue :=
  { q with
    buckets := ((assignments.filter (fun a => a.state.held)).map (·.id)).insertionSort (· ≤ ·)
    drainingBuckets := (assignments.filter (fun a => a.state = .draining)).map (·.id) }

/-- `_in_flight_buckets.get(bucket, 0)`. -/
def inFlight (q : BackQueue) (bucket : Nat) : Nat := (q.inFlightBuckets.get? bucket).getD 0

/-- `_bucket_has_work`. -/
def bucketHasWork (lib : Externals) (q : BackQueue) (bucket : Nat) : Bool :=
  0 < q.inFlight bucket || q.queues.entries.any (fun e => lib.bucketize e.1 = bucket ∧ e.2 ≠ [])

/-- `_has_local_work`. -/
def hasLocalWork (q : BackQueue) : Bool :=
  q.inFlightBuckets.size ≠ 0 || q.queues.entries.any (fun e => e.2 ≠ [])

/-- `bucket_states`, computed under the general lock. -/
def bucketStates (lib : Externals) (q : BackQueue) : List (Nat × BucketState) :=
  q.buckets.map (fun b => (b, if q.bucketHasWork lib b then .active else .idle))

/-- `drained_buckets`, computed under the general lock. -/
def drainedBuckets (lib : Externals) (q : BackQueue) : List Nat :=
  (q.drainingBuckets.filter (fun b => !q.bucketHasWork lib b)).insertionSort (· ≤ ·)

/-- `fetchable_buckets` of `_enqueue_new_domain`. -/
def fetchableBuckets (q : BackQueue) : List Nat := q.buckets.filter (· ∉ q.drainingBuckets)

/-- `put` up to the release time: the queue and the lock of the domain. -/
def put (q : BackQueue) (payload : Payload) : BackQueue :=
  let domain := payload.url.domain
  let q := { q with queues := q.queues.set domain ((q.queues.get? domain).getD [] ++ [payload]) }
  if q.locks.get? domain = none then
    { q with locks := q.locks.set domain q.nextLock, nextLock := q.nextLock + 1 }
  else q

/-- `self.release_times[domain] = time`. -/
def setReleaseTime (q : BackQueue) (domain : String) (time : Time) : BackQueue :=
  { q with releaseTimes := q.releaseTimes.set domain time }

/-- What the scan of `next` comes to. -/
inductive Scan where
  | found (domain : String) (payload : Payload) (rest : List Payload) (lock : LockId)
  | nothing
  | keyError

/-- The `for` loop of `next` at one instant. -/
def scanEntries (q : BackQueue) (now : Time) (locked : LockId → Bool) :
    List (String × List Payload) → Scan
  | [] => .nothing
  | (domain, queue) :: entries =>
    match q.releaseTimes.get? domain, q.locks.get? domain with
    | some releaseTime, some lock =>
      match queue with
      | [] => scanEntries q now locked entries
      | payload :: rest =>
        if releaseTime ≤ now ∧ ¬ locked lock then .found domain payload rest lock
        else scanEntries q now locked entries
    | _, _ => .keyError

def scan (q : BackQueue) (now : Time) (locked : LockId → Bool) : Scan :=
  q.scanEntries now locked q.queues.entries

/-- What `next` does with the payload it found. -/
def take (lib : Externals) (q : BackQueue) (now : Time) (domain : String) (rest : List Payload) : BackQueue :=
  { q with
    releaseTimes := q.releaseTimes.set domain (now + DEFAULT_DOMAIN_DELAY)
    queues := q.queues.set domain rest
    inFlightBuckets := q.inFlightBuckets.set (lib.bucketize domain) (q.inFlight (lib.bucketize domain) + 1) }

/-- `complete` under the general lock. -/
def complete (lib : Externals) (q : BackQueue) (payload : Payload) : BackQueue :=
  let bucket := lib.bucketize payload.url.domain
  { q with inFlightBuckets :=
      if q.inFlight bucket ≤ 1 then q.inFlightBuckets.erase bucket
      else q.inFlightBuckets.set bucket (q.inFlight bucket - 1) }

/-- `report` schedules a cleanup. Without a queue for the domain the test raises
`KeyError` and nothing is scheduled. -/
def cleanupDue (q : BackQueue) (domain : String) (fetched : Fetched) : Bool :=
  fetched.shouldLock || q.queues.get? domain = some []

/-- `_cleanup_domain` under both locks. -/
def removeDomain (q : BackQueue) (domain : String) : BackQueue :=
  { q with
    queues := q.queues.erase domain
    releaseTimes := q.releaseTimes.erase domain
    locks := q.locks.erase domain }

end BackQueue

end Linksurf
