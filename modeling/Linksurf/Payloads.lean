import Linksurf.IsoFormat
import Linksurf.Json
import Linksurf.Normalize

/-!
# Payloads

The records of `linksurf/common/models.py` a payload carries and
`linksurf/common/payload.py`, with the dictionaries they travel as. A reader
refuses a value of another type than the one annotated, which Python would
carry along; no writer produces one.
-/
namespace Linksurf.Pipeline

open Dicts (Dict)
open IsoFormat (DateTime)
open Json

/-! ## Records -/

inductive LinkType where
  | internal | external
  deriving DecidableEq

def LinkType.value : LinkType → String
  | .internal => "INTERNAL"
  | .external => "EXTERNAL"

structure Link where
  source : String
  target : String
  rawTarget : String
  type : LinkType
  text : Option String
  rel : Option String

structure Redirect where
  source : String
  target : String
  statusCode : Int
  depth : Int
  deriving DecidableEq

structure HTTPRequestSummary where
  url : String
  method : String := "GET"
  userAgent : Option String := none
  proxy : Option String := none
  timeout : ℚ := 30
  followRedirects : Bool := false
  deriving DecidableEq

/-- `str.lower` of a string. -/
def lowerKey (rt : Runtime) (s : String) : String := String.ofList (rt.lower s.toList)

theorem lowerKey_lowerKey (rt : Runtime) (s : String) : lowerKey rt (lowerKey rt s) = lowerKey rt s := by
  rw [lowerKey, lowerKey, String.toList_ofList, Lowercase.CaseTable.lower_lower]

/-- A `CaseInsensitiveDict`: all its keys are in lower case. -/
structure Headers (rt : Runtime) where
  items : Dict String String
  lowered : ∀ k ∈ items.keys, lowerKey rt k = k

namespace Headers

variable {rt : Runtime}

theorem ext {g h : Headers rt} (he : g.items = h.items) : g = h := by
  cases g
  cases h
  cases he
  rfl

def empty : Headers rt := ⟨.empty, by intro k hk; cases hk⟩

/-- `self[key] = value`. -/
def set (h : Headers rt) (key value : String) : Headers rt :=
  ⟨h.items.set (lowerKey rt key) value, by
    intro k hk
    obtain ⟨v, hv⟩ := Dict.mem_keys_iff.mp hk
    rw [Dict.get?_set] at hv
    split at hv
    · rename_i he
      rw [he, lowerKey_lowerKey]
    · exact h.lowered k (Dict.mem_keys_iff.mpr ⟨v, hv⟩)⟩

def get? (h : Headers rt) (key : String) : Option String := h.items.get? (lowerKey rt key)

/-- `CaseInsensitiveDict(data)`. -/
def ofItems (items : List (String × String)) : Headers rt := items.foldl (fun h e => h.set e.1 e.2) empty

theorem items_foldl {items : List (String × String)} (hl : ∀ e ∈ items, lowerKey rt e.1 = e.1) (h : Headers rt) :
    (items.foldl (fun h e => h.set e.1 e.2) h).items = items.foldl (fun d e => d.set e.1 e.2) h.items := by
  induction items generalizing h with
  | nil => rfl
  | cons e items ih =>
    have hset : (h.set e.1 e.2).items = h.items.set e.1 e.2 := by
      change h.items.set (lowerKey rt e.1) e.2 = _
      rw [hl e (List.mem_cons_self ..)]
    rw [List.foldl_cons, List.foldl_cons, ih (fun x hx => hl x (List.mem_cons_of_mem _ hx)), hset]

/-- Headers made of headers are the same. -/
theorem ofItems_entries (h : Headers rt) : ofItems h.items.entries = h := by
  have hl : ∀ e ∈ h.items.entries, lowerKey rt e.1 = e.1 :=
    fun e he => h.lowered e.1 (List.mem_map_of_mem he)
  have hitems : (ofItems h.items.entries : Headers rt).items.entries = h.items.entries := by
    rw [ofItems, items_foldl hl, Dict.entries_foldl_set _ _ (by simpa [empty, Dict.empty] using h.items.nodup)]
    rfl
  exact ext (Dict.ext hitems)

end Headers

structure HTTPResponseSummary (rt : Runtime) where
  statusCode : Int
  headers : Headers rt
  encoding : Option String
  elapsedMs : ℚ
  sizeBytes : Int
  redirects : List Redirect

namespace HTTPResponseSummary

variable {rt : Runtime}

def ok (r : HTTPResponseSummary rt) : Bool := 200 ≤ r.statusCode && r.statusCode < 300

def isRedirect (r : HTTPResponseSummary rt) : Bool := r.statusCode ∈ [301, 302, 303, 307, 308]

end HTTPResponseSummary

inductive MimeType where
  | text | html | pdf | unknown
  deriving DecidableEq

def MimeType.value : MimeType → String
  | .text => "text/plain"
  | .html => "text/html"
  | .pdf => "application/pdf"
  | .unknown => "unknown"

/-- The content of a page; its type is the value of a `MimeType`, which is a
string, and what was extracted has links in any place. -/
structure Content where
  key : String
  type : String
  extracted : Value Link := .none

/-- A URL that a constructor call returned. -/
def BuiltURL (rt : Runtime) : Type := { url : URL // ∃ s, URL.ofAddress rt s = some url }

def BuiltURL.ofAddress (rt : Runtime) (s : List Char) : Option (BuiltURL rt) :=
  (URL.ofAddress rt s).pmap (fun url h => ⟨url, h⟩) (fun _ h => ⟨s, h⟩)

structure Payload (rt : Runtime) where
  url : BuiltURL rt
  priority : Int := 0
  retrying : Bool := false
  retries : Int := 0
  deduplicated : Bool := false
  content : Option Content := none
  redirects : List Redirect := []
  request : Option HTTPRequestSummary := none
  response : Option (HTTPResponseSummary rt) := none
  metadata : Dict String Plain := .empty
  correlationId : { id : String // id ≠ "" }
  crawlId : Option String := none
  discoveredAt : DateTime
  published : Bool := false

/-- The identifier `uuid4` gives and the time, where they are asked for. -/
structure Defaults where
  uuid : { id : String // id ≠ "" }
  now : DateTime

/-- `correlation_id or uuid4().hex`. -/
def Defaults.correlationId (defaults : Defaults) : Option String → { id : String // id ≠ "" }
  | none => defaults.uuid
  | some id => if h : id ≠ "" then ⟨id, h⟩ else defaults.uuid

/-! ## Writing -/

/-- The dictionary `asdict` makes of a link. -/
def Link.fields (l : Link) : Plain := object
  [ ("source", .str l.source), ("target", .str l.target), ("raw_target", .str l.rawTarget),
    ("type", .str l.type.value), ("text", optional .str l.text), ("rel", optional .str l.rel) ]

def Redirect.asdict (r : Redirect) : Plain := object
  [ ("source", .str r.source), ("target", .str r.target), ("status_code", .int r.statusCode),
    ("depth", .int r.depth) ]

def HTTPRequestSummary.asdict (r : HTTPRequestSummary) : Plain := object
  [ ("url", .str r.url), ("method", .str r.method), ("user_agent", optional .str r.userAgent),
    ("proxy", optional .str r.proxy), ("timeout", .float r.timeout), ("follow_redirects", .bool r.followRedirects) ]

def headerEntry (e : String × String) : String × Plain := (e.1, .str e.2)

def HTTPResponseSummary.asdict {rt : Runtime} (r : HTTPResponseSummary rt) : Plain := object
  [ ("status_code", .int r.statusCode), ("headers", object (r.headers.items.entries.map headerEntry)),
    ("encoding", optional .str r.encoding), ("elapsed_ms", .float r.elapsedMs), ("size_bytes", .int r.sizeBytes),
    ("redirects", .list (r.redirects.map Redirect.asdict)) ]

def Content.asdict (c : Content) : Plain := object
  [ ("key", .str c.key), ("type", .str c.type), ("extracted", Json.asdict Link.fields c.extracted) ]

def BuiltURL.address {rt : Runtime} (url : BuiltURL rt) : String := String.ofList url.val.address

def timestamp (d : DateTime) : Plain := .str (String.ofList (IsoFormat.isoformat d))

def Payload.members {rt : Runtime} (p : Payload rt) : List (String × Plain) :=
  [ ("url", .str p.url.address),
    ("priority", .int p.priority),
    ("retrying", .bool p.retrying),
    ("retries", .int p.retries),
    ("deduplicated", .bool p.deduplicated),
    ("content", optional Content.asdict p.content),
    ("redirects", .list (p.redirects.map Redirect.asdict)),
    ("request", optional HTTPRequestSummary.asdict p.request),
    ("response", optional HTTPResponseSummary.asdict p.response),
    ("metadata", object p.metadata.entries),
    ("correlation_id", .str p.correlationId),
    ("crawl_id", optional .str p.crawlId),
    ("discovered_at", timestamp p.discoveredAt) ]

def Payload.toDict {rt : Runtime} (p : Payload rt) : Plain := object p.members

/-! ## Reading -/

/-- `Redirect(**data)`. -/
def Redirect.ofDict (data : Plain) : Option Redirect := do
  let data ← kwargs ["source", "target", "status_code", "depth"] data
  return {
    source := ← getItem data "source" asString
    target := ← getItem data "target" asString
    statusCode := ← getItem data "status_code" asInt
    depth := ← getItem data "depth" asInt }

/-- `HTTPRequestSummary(**data)`. -/
def HTTPRequestSummary.ofDict (data : Plain) : Option HTTPRequestSummary := do
  let data ← kwargs ["url", "method", "user_agent", "proxy", "timeout", "follow_redirects"] data
  return {
    url := ← getItem data "url" asString
    method := ← getDefault data "method" asString "GET"
    userAgent := ← getDefault data "user_agent" (asOptional asString) none
    proxy := ← getDefault data "proxy" (asOptional asString) none
    timeout := ← getDefault data "timeout" asFloat 30
    followRedirects := ← getDefault data "follow_redirects" asBool false }

/-- `CaseInsensitiveDict(data)` for a dictionary of strings. -/
def Headers.ofDict (rt : Runtime) (data : Plain) : Option (Headers rt) := do
  let items ← asObject data
  return ofItems (← items.mapM (fun e => (asString e.2).map (fun v => (e.1, v))))

/-- `HTTPResponseSummary(**{**data, "redirects": [...]})`. -/
def HTTPResponseSummary.ofDict (rt : Runtime) (data : Plain) : Option (HTTPResponseSummary rt) := do
  let data ← kwargs ["status_code", "headers", "encoding", "elapsed_ms", "size_bytes", "redirects"] data
  return {
    statusCode := ← getItem data "status_code" asInt
    headers := ← getItem data "headers" (Headers.ofDict rt)
    encoding := ← getItem data "encoding" (asOptional asString)
    elapsedMs := ← getItem data "elapsed_ms" asFloat
    sizeBytes := ← getItem data "size_bytes" asInt
    redirects := ← getDefault data "redirects" (asList Redirect.ofDict) [] }

/-- `Content(**data)`. -/
def Content.ofDict (data : Plain) : Option Content := do
  let data ← kwargs ["key", "type", "extracted"] data
  return {
    key := ← getItem data "key" asString
    type := ← getItem data "type" asString
    extracted := ← getDefault data "extracted" (fun v => some (lift v)) .none }

/-- `read(data) if data else None`. -/
def ifTruthy {α : Type} (read : Plain → Option α) (data : Plain) : Option (Option α) :=
  if truthy data then (read data).map some else some none

def asMetadata (data : Plain) : Option (Dict String Plain) := do
  let entries ← asObject data
  if h : (entries.map Prod.fst).Nodup then some ⟨entries, h⟩ else none

def asDateTime (data : Plain) : Option DateTime := (asString data).bind (fun s => IsoFormat.fromisoformat s.toList)

/-- `Payload.from_dict`, `none` where it raises. -/
def Payload.fromDict (rt : Runtime) (defaults : Defaults) (data : Plain) : Option (Payload rt) := do
  let data ← asObject data
  return {
    url := ← getItem data "url" (fun v => (asString v).bind (fun s => BuiltURL.ofAddress rt s.toList))
    priority := ← getDefault data "priority" asInt 0
    retrying := ← getDefault data "retrying" asBool false
    retries := ← getDefault data "retries" asInt 0
    deduplicated := ← getDefault data "deduplicated" asBool false
    content := ← getDefault data "content" (ifTruthy Content.ofDict) none
    redirects := ← getDefault data "redirects" (asList Redirect.ofDict) []
    request := ← getDefault data "request" (ifTruthy HTTPRequestSummary.ofDict) none
    response := ← getDefault data "response" (ifTruthy (HTTPResponseSummary.ofDict rt)) none
    metadata := (← getDefault data "metadata" (asOptional asMetadata) none).getD .empty
    correlationId := defaults.correlationId (← getDefault data "correlation_id" (asOptional asString) none)
    crawlId := ← getDefault data "crawl_id" (asOptional asString) none
    discoveredAt := (← getDefault data "discovered_at" (ifTruthy asDateTime) none).getD defaults.now }

end Linksurf.Pipeline
