import Linksurf.CrawlHistory
import Linksurf.Payloads
import Linksurf.Procedure

/-!
# Components

`linksurf/components/base.py`: the steps a component is made of, the saving of
its execution, and the handler both kinds of components run around their
callback. The services and the executors are operations, and so are the clock
and `uuid4`; a program's variable is the payload it works on. Executors answer
with the metadata they leave and their response. Of the events those about
components and crawls are kept.
-/
namespace Linksurf.Pipeline

open Coroutine
open Dicts (Dict)
open IsoFormat (DateTime)
open Json (Plain)

/-- An exception, known by the path of its class. -/
structure Raised where
  path : String
  deriving DecidableEq

structure Error where
  message : String
  retriable : Bool := true
  unexpected : Bool := false
  exception : Option Raised := none
  delaySeconds : Option Int := none
  deriving DecidableEq

/-- `Response`. -/
structure Response (α : Type) where
  data : Option α
  error : Option Error

/-- What an executor leaves and how it ended. -/
structure Executed (α : Type) where
  metadata : Dict String Plain
  outcome : Except Raised (Response α)

inductive CrawlStatus where
  | pending | inProgress | skipped | redirected | errored | succeeded
  deriving DecidableEq

def CrawlStatus.value : CrawlStatus → String
  | .pending => "pending"
  | .inProgress => "in_progress"
  | .skipped => "skipped"
  | .redirected => "redirected"
  | .errored => "errored"
  | .succeeded => "succeeded"

inductive ComponentName where
  | frontier | downloader | parser | storage
  deriving DecidableEq

/-- `NAME`. -/
def ComponentName.value : ComponentName → String
  | .frontier => "Frontier"
  | .downloader => "Downloader"
  | .parser => "Parser"
  | .storage => "Storage"

/-- The topics: `url.process`, `url.parse` and `url.store`. -/
inductive Topic where
  | process | parse | store
  deriving DecidableEq

/-- A component with the class names of its executors. -/
structure Component where
  name : ComponentName
  final : Bool := false
  rules : List String := []
  deduplicator : Option String := none
  middlewares : List String := []
  filters : List String := []
  prioritizer : Option String := none

structure HTTPRequest where
  url : String
  method : String := "GET"
  userAgent : Option String := none
  proxy : Option String := none
  timeout : ℚ := 30
  followRedirects : Bool := false

def HTTPRequest.toSummary (r : HTTPRequest) : HTTPRequestSummary where
  url := r.url
  method := r.method
  userAgent := r.userAgent
  proxy := r.proxy
  timeout := r.timeout
  followRedirects := r.followRedirects

structure HTTPResponse (rt : Runtime) where
  url : String
  statusCode : Int
  headers : Headers rt
  body : List Nat
  encoding : Option String
  elapsedMs : ℚ
  redirects : List Redirect

namespace HTTPResponse

variable {rt : Runtime}

def ok (r : HTTPResponse rt) : Bool := 200 ≤ r.statusCode && r.statusCode < 300

def isRedirect (r : HTTPResponse rt) : Bool := r.statusCode ∈ [301, 302, 303, 307, 308]

def toSummary (r : HTTPResponse rt) : HTTPResponseSummary rt where
  statusCode := r.statusCode
  headers := r.headers
  encoding := r.encoding
  elapsedMs := r.elapsedMs
  sizeBytes := r.body.length
  redirects := r.redirects

end HTTPResponse

/-- The end of a fetch, and the request as the fetcher leaves it. -/
structure Fetch (rt : Runtime) where
  request : HTTPRequest
  outcome : Except Raised (Option (HTTPResponse rt))

/-- The document the Frontier registers. -/
structure URLModel where
  address : String
  hash : String
  domain : String
  bucket : Nat
  priority : Int
  correlationId : { id : String // id ≠ "" }
  discoveredAt : DateTime

/-- The result of an extractor, with whether it has a callback. -/
structure ExtractorResult where
  name : String
  callback : Bool
  data : Json.Value Link
  exception : Option Raised

inductive Event (rt : Runtime) where
  | componentStart (component : ComponentName) (payload : Payload rt)
  | componentFinish (component : ComponentName) (payload : Payload rt)
  | componentError (component : ComponentName) (payload : Payload rt) (error : Error)
  | crawlPending (component : ComponentName) (correlationId url : String)
  | crawlStart (id : String) (component : ComponentName) (correlationId url : String)
  | crawlFinish (id : String) (component : ComponentName) (correlationId url : String) (status : CrawlStatus)

inductive Judge where
  | rule | filter
  deriving DecidableEq

inductive Call (rt : Runtime) where
  | now
  | uuid
  | emit (event : Event rt)
  | brokerPublish (topic : Topic) (payload : Payload rt) (priority : Int)
  | judge (kind : Judge) (name : String) (payload : Payload rt)
  | executeMiddleware (name : String) (payload : Payload rt)
  | executePrioritizer (name : String) (payload : Payload rt)
  | isUrlSeen (url : BuiltURL rt)
  | markUrlSeen (url : BuiltURL rt)
  | areUrlsSeen (urls : List (BuiltURL rt))
  | updateDomainMetrics (domain : Option (List Char)) (port : Nat) (elapsedMs : ℚ) (sizeBytes : Int)
  | registerUrl (url : URLModel)
  | saveDomain (domain : String) (bucket : Nat)
  | startCrawl (hash : String) (crawl : Crawl)
  | updateCrawl (update : Update)
  | fetch (request : HTTPRequest)
  | report (payload : Payload rt) (response : Option (HTTPResponse rt)) (exception : Option Raised)
  | complete (payload : Payload rt)
  | upload (body : List Nat) (key : String) (contentType : Plain)
  | download (key : String)
  | extract (payload : Payload rt) (contents : List Nat)

/-- The answers; listeners of events never raise into the emitter. -/
@[reducible] def Call.Reply {rt : Runtime} : Call rt → Type
  | .now => DateTime
  | .uuid => { id : String // id ≠ "" }
  | .emit _ => Unit
  | .judge _ _ _ => Executed Bool
  | .executeMiddleware _ _ => Executed Unit
  | .executePrioritizer _ _ => Executed Int
  | .isUrlSeen _ => Except Raised Bool
  | .areUrlsSeen _ => Except Raised (List Bool)
  | .fetch _ => Fetch rt
  | .download _ => Except Raised (Option (List Nat))
  | .extract _ _ => Except Raised (List ExtractorResult)
  | _ => Except Raised Unit

abbrev Task (rt : Runtime) (α : Type) := Proc (Call rt) Call.Reply Raised (Payload rt) α

section

variable {rt : Runtime}

abbrev await (call : Call rt) : Task rt call.Reply := Proc.call call

abbrev payload : Task rt (Payload rt) := Proc.read

abbrev emit (event : Event rt) : Task rt Unit := await (.emit event)

/-- The response of an executor. -/
def response {α : Type} (executed : Executed α) : Task rt (Response α) := do
  Proc.assign (fun p => { p with metadata := executed.metadata })
  Proc.value executed.outcome

/-! ## Executors -/

/-- The loops of `Component.rule` and `Component.filter`. -/
def judgeAll (kind : Judge) : List String → Task rt (Except Error Bool)
  | [] => pure (.ok true)
  | name :: names => do
    let result ← response (← await (.judge kind name (← payload)))
    match result.error with
    | some error => pure (.error error)
    | none => if result.data = some true then judgeAll kind names else pure (.ok false)

def enrichAll : List String → Task rt (Option Error)
  | [] => pure none
  | name :: names => do
    let result ← response (← await (.executeMiddleware name (← payload)))
    match result.error with
    | some error => pure (some error)
    | none => enrichAll names

namespace Component

/-- `Component.rule`. -/
def rule (c : Component) : Task rt (Except Error Bool) := judgeAll .rule c.rules

/-- `Component.enrich`. -/
def enrich (c : Component) : Task rt (Option Error) := enrichAll c.middlewares

/-- `Component.filter`. -/
def filter (c : Component) : Task rt (Except Error Bool) := do
  match ← c.enrich with
  | some error => pure (.error error)
  | none => judgeAll .filter c.filters

def notDefined : Raised := ⟨"builtins.Exception"⟩

/-- `Component.deduplicate` with `URLDeduplicator`: whether the URL was seen. -/
def deduplicate (c : Component) : Task rt (Except Error Bool) := do
  if c.deduplicator = none then Proc.raise notDefined
  else if (← payload).deduplicated then
    -- the payload's own retry is not held up by its mark
    pure (.ok false)
  else
    match ← await (.isUrlSeen (← payload).url) with
    | .error e => pure (.error { message := "Cache lookup failed.", retriable := true, exception := some e })
    | .ok true => do
      Proc.assign (fun p => { p with deduplicated := true })
      pure (.ok true)
    | .ok false =>
      match ← await (.markUrlSeen (← payload).url) with
      | .error e => pure (.error { message := "Cache write failed.", retriable := true, exception := some e })
      | .ok () => do
        Proc.assign (fun p => { p with deduplicated := true })
        pure (.ok false)

/-- `Component.prioritize`. -/
def prioritize (c : Component) : Task rt (Except Error Int) :=
  match c.prioritizer with
  | none => Proc.raise notDefined
  | some name => do
    let result ← response (← await (.executePrioritizer name (← payload)))
    match result.error, result.data with
    | some error, _ => pure (.error error)
    | none, none => pure (.error { message := "Prioritizer gave empty response.", retriable := true })
    | none, some priority => pure (.ok priority)

end Component

/-- `Component.publish`. -/
def publish (topic : Topic) : List (Payload rt) → Task rt Unit
  | [] => pure ()
  | p :: ps => do
    Proc.value (← await (.brokerPublish topic p p.priority))
    publish topic ps

/-! ## Saving an execution -/

/-- The execution the handler builds. -/
def Component.execution (c : Component) (retries : Int) (startedAt finishedAt : DateTime) : ComponentExecution where
  component := c.name.value
  rules := c.rules
  deduplicator := c.deduplicator
  middlewares := c.middlewares
  filters := c.filters
  retries
  startedAt := some startedAt
  finishedAt := some finishedAt

def ComponentExecution.withError (execution : ComponentExecution) : Option Error → ComponentExecution
  | none => execution
  | some error =>
    { execution with
      error := some error.message
      retriable := some error.retriable
      exception := (error.exception.map (fun e => e.path)).or execution.exception }

/-- The status a component leaves its crawl in. -/
def Component.crawlStatus (c : Component) (p : Payload rt) (error : Option Error) : CrawlStatus :=
  if error.isSome then .errored
  else if p.published then .inProgress
  else if p.response.any (fun r => r.isRedirect) then .redirected
  else if c.final then .succeeded
  else .skipped

/-- `fields[key] = value`. -/
def setField (fields : Dict CrawlField FieldValue) (field : CrawlField) (value : Plain) : Dict CrawlField FieldValue :=
  fields.set field (Json.lift value)

def setOptional {α : Type} (fields : Dict CrawlField FieldValue) (field : CrawlField) (write : α → Plain) :
    Option α → Dict CrawlField FieldValue
  | none => fields
  | some a => setField fields field (write a)

/-- A dictionary, left out where it is empty. -/
def setNonempty (fields : Dict CrawlField FieldValue) (field : CrawlField) (entries : List (String × Plain)) :
    Dict CrawlField FieldValue :=
  if entries = [] then fields else setField fields field (Json.object entries)

/-- The `fields` of `_save_execution`. -/
def crawlFields (p : Payload rt) (finishedAt : Option DateTime) (status : CrawlStatus) :
    Dict CrawlField FieldValue :=
  let fields := Dict.empty.set .finishedAt ((finishedAt.map Json.Value.record).getD .none)
  let fields := setOptional fields .request HTTPRequestSummary.asdict p.request
  let fields := setOptional fields .response HTTPResponseSummary.asdict p.response
  let fields := setOptional fields .content Content.asdict p.content
  let fields := if p.redirects = [] then fields
    else setField fields .redirects (.list (p.redirects.map Redirect.asdict))
  let fields := setNonempty fields .metadata (p.metadata.entries.filter (fun e => e.1 ≠ "links"))
  setField fields .status (.str status.value)

namespace Component

/-- `Component._save_execution`: nothing is saved without a crawl, and a failed
write is logged. -/
def saveExecution (c : Component) (execution : ComponentExecution) (error : Option Error) : Task rt Unit := do
  let p ← payload
  match p.crawlId with
  | none => pure ()
  | some id => do
    let execution := execution.withError error
    let status := c.crawlStatus p error
    let _ ← await (.updateCrawl ⟨id, execution, crawlFields p execution.finishedAt status⟩)
    if status = .inProgress then pure ()
    else emit (.crawlFinish id c.name p.correlationId p.url.address status)

/-- The error of a callback: the one it returned, or one for an exception. -/
def errorOf : Except Raised (Option Error) → Option Error
  | .ok error => error
  | .error e =>
    some { message := "Uncaught error.", exception := some e, retriable := false, unexpected := true }

/-- The event after a callback. -/
def outcomeEvent (c : Component) (p : Payload rt) : Option Error → Event rt
  | none => .componentFinish c.name p
  | some error => .componentError c.name p error

/-- A retry is counted before the payload is processed. -/
def countRetry (p : Payload rt) : Payload rt := if p.retrying then { p with retries := p.retries + 1 } else p

/-- The handler of `ConsumerComponent.subscribe` and `LooperComponent.loop`. -/
def handle (c : Component) (callback : Task rt (Option Error)) : Task rt Unit := do
  let startedAt ← await .now
  Proc.assign countRetry
  emit (.componentStart c.name (← payload))
  let error := errorOf (← Proc.attempt callback)
  let finishedAt ← await .now
  let p ← payload
  emit (c.outcomeEvent p error)
  c.saveExecution (c.execution p.retries startedAt finishedAt) error

end Component

end

end Linksurf.Pipeline
