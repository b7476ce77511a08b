import Linksurf.Phases
import Linksurf.Wire

/-!
# Handlers at work

Any number of handlers in any number of workers, the broker between them and
the database. A step is one answer to one handler, so the handlers interleave
in every order. Services other than the broker and the database answer as they
like, and every call may fail; a failed write may have taken effect or not. A
crawl is saved in one step: nothing else writes an entry for its component
between the two updates.
-/
namespace Linksurf.Pipeline

open Coroutine
open Json (Plain throughJson)

/-- What became of the saving of an execution. -/
inductive Save where
  | due | lost | landed
  deriving DecidableEq

/-- A handler at work, with the crawl its payload has and its saving of it. -/
structure Work (rt : Runtime) where
  component : ComponentName
  program : Coro (Call rt) Call.Reply (Except Raised Unit × Payload rt)
  crawl : Option String
  save : Save := .due

/-- `urls` and `store` are the documents, `ids` the ids of crawls so far. -/
structure State (rt : Runtime) where
  urls : List URLModel
  store : CrawlStore
  messages : List (Topic × Plain)
  work : List (Work rt)
  events : List (Event rt)
  ids : List String

/-- An answer comes with whether a failed write took effect. -/
inductive Action (rt : Runtime) where
  | seed (url : BuiltURL rt) (defaults : Defaults)
  | pull (i : Nat)
  | deliver (i : Nat) (defaults : Defaults)
  | answer (i : Nat) (reply : (call : Call rt) → call.Reply) (applied : Bool)

/-- Both updates of `update_crawl`, without a pause. -/
def CrawlStore.save (store : CrawlStore) (u : Update) : CrawlStore :=
  if store.documents.any (fun d => d.hasExecution u) then store.updateCrawl u
  else (store.updateCrawl u).append store.pending.length u

section

variable {rt : Runtime}

namespace Work

/-- A handler starts on a payload. -/
def start (component : ComponentName) (p : Payload rt) : Work rt where
  component
  program := handler component p
  crawl := p.crawlId

/-- The crawl and the saving after an answer. -/
def follow (w : Work rt) (program : Coro (Call rt) Call.Reply (Except Raised Unit × Payload rt)) :
    (call : Call rt) → call.Reply → Bool → Work rt
  | .startCrawl _ crawl, .ok (), _ => { w with program, crawl := some crawl.id }
  | .updateCrawl _, reply, applied => { w with program, save := if reply.isOk || applied then .landed else .lost }
  | _, _, _ => { w with program }

/-- What a handler waits for, `none` where it has run to completion. -/
def awaited (w : Work rt) : Option (Call rt) :=
  match w.program with
  | .ret _ => none
  | .await call _ => some call

end Work

namespace State

def initial : State rt := ⟨[], .initial, [], [], [], []⟩

def tell (s : State rt) (event : Event rt) : State rt := { s with events := s.events ++ [event] }

def send (s : State rt) (topic : Topic) (x : Plain) : State rt := { s with messages := s.messages ++ [(topic, x)] }

/-- `register_url`: the first document of a URL stays. -/
def register (s : State rt) (url : URLModel) : State rt :=
  if s.store.documents.any (fun d => d.hash = url.hash) then s
  else { s with urls := s.urls ++ [url], store := s.store.registerUrl url.hash }

def saveCrawl (s : State rt) (u : Update) : State rt := { s with store := s.store.save u }

/-- A publish that the broker takes, unless `json.dumps` raises. -/
def published (s : State rt) (topic : Topic) (p : Payload rt) : Except Raised Unit → Except Raised Unit × State rt
  | .error e => (.error e, s)
  | .ok () =>
    match throughJson p.toDict with
    | none => (.error typeError, s)
    | some x => (.ok (), s.send topic x)

def startCrawl (s : State rt) (hash : String) (crawl : Crawl) : State rt :=
  { s with store := s.store.startCrawl ⟨hash, crawl.id, crawl.values⟩, ids := s.ids ++ [crawl.id] }

def refuseCrawl (s : State rt) (crawl : Crawl) : State rt := { s with ids := s.ids ++ [crawl.id] }

/-- `start_crawl`, which raises where there is no document. -/
def started (s : State rt) (hash : String) (crawl : Crawl) (applied : Bool) :
    Except Raised Unit → Except Raised Unit × State rt
  | .error e => (.error e, if applied then s.startCrawl hash crawl else s.refuseCrawl crawl)
  | .ok () =>
    if s.store.documents.any (fun d => d.hash = hash) then (.ok (), s.startCrawl hash crawl)
    else (.error valueError, s.refuseCrawl crawl)

/-- A call meets the broker and the database. -/
def serve (s : State rt) : (call : Call rt) → call.Reply → Bool → call.Reply × State rt
  | .emit event, _, _ => ((), s.tell event)
  | .brokerPublish topic p _, reply, _ => s.published topic p reply
  | .registerUrl url, reply, applied => (reply, if reply.isOk || applied then s.register url else s)
  | .startCrawl hash crawl, reply, applied => s.started hash crawl applied reply
  | .updateCrawl u, reply, applied => (reply, if reply.isOk || applied then s.saveCrawl u else s)
  | _, reply, _ => (reply, s)

/-- A message that is no payload is not delivered. -/
def deliver (s : State rt) (i : Nat) (defaults : Defaults) : Option (State rt) := do
  let (topic, x) ← s.messages[i]?
  let p ← Payload.fromDict rt defaults x
  return { s with messages := s.messages.eraseIdx i, work := s.work ++ [Work.start topic.consumer p] }

def answer (s : State rt) (i : Nat) (reply : (call : Call rt) → call.Reply) (applied : Bool) : Option (State rt) := do
  let w ← s.work[i]?
  match w.program with
  | .ret _ => none
  | .await call k =>
    let served := s.serve call (reply call) applied
    return { served.2 with work := s.work.set i (w.follow (k served.1) call served.1 applied) }

def step (s : State rt) : Action rt → Option (State rt)
  | .seed url defaults =>
    (throughJson { url, correlationId := defaults.uuid, discoveredAt := defaults.now : Payload rt }.toDict).map
      (s.send .process)
  | .pull i => do
    let url ← s.urls[i]?
    let p ← url.payload rt
    return { s with work := s.work ++ [Work.start .downloader p] }
  | .deliver i defaults => s.deliver i defaults
  | .answer i reply applied => s.answer i reply applied

/-- What the handler at a position waits for. -/
def awaited (s : State rt) (i : Nat) : Option (Call rt) := s.work[i]?.bind Work.awaited

/-- `uuid4` gives every crawl an id of its own. -/
def Fresh (s : State rt) : Action rt → Prop
  | .answer i _ _ => ∀ hash crawl, s.awaited i = some (.startCrawl hash crawl) → crawl.id ∉ s.ids
  | _ => True

end State

end

def exampleResponse : HTTPResponse asciiRuntime where
  url := "http://site/"
  statusCode := 200
  headers := .empty
  body := [1]
  encoding := none
  elapsedMs := 1
  redirects := []

/-- Services with which everything succeeds. -/
def exampleReply : (call : Call asciiRuntime) → call.Reply
  | .now => exampleTime
  | .uuid => ⟨"0c", by decide⟩
  | .emit _ => ()
  | .judge _ _ p => ⟨p.metadata, .ok ⟨some true, none⟩⟩
  | .executeMiddleware _ p => ⟨p.metadata, .ok ⟨some (), none⟩⟩
  | .executePrioritizer _ p => ⟨p.metadata, .ok ⟨some 7, none⟩⟩
  | .isUrlSeen _ => .ok false
  | .areUrlsSeen _ => .ok []
  | .fetch request => ⟨request, .ok (some exampleResponse)⟩
  | .download _ => .ok (some [1])
  | .extract _ _ => .ok [⟨"HTMLExtractor", false, .none, none⟩]
  | .brokerPublish _ _ _ => .ok ()
  | .markUrlSeen _ => .ok ()
  | .updateDomainMetrics _ _ _ _ => .ok ()
  | .registerUrl _ => .ok ()
  | .saveDomain _ _ => .ok ()
  | .startCrawl _ _ => .ok ()
  | .updateCrawl _ => .ok ()
  | .report _ _ _ => .ok ()
  | .complete _ => .ok ()
  | .upload _ _ _ => .ok ()

end Linksurf.Pipeline
