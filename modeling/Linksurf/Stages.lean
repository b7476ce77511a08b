import Linksurf.Components

/-!
# The four components

The callbacks of the Frontier, the Downloader, the Parser and the Storage. The
lock of a domain, which the Downloader holds from the fetch to the report, is
left out.
-/
namespace Linksurf.Pipeline

open Coroutine
open Dicts (Dict)
open IsoFormat (DateTime)
open Json (Plain)

def MAX_REDIRECT_DEPTH : Int := 5

def frontier : Component where
  name := .frontier
  rules := ["SchemeRule", "URLExtensionRule", "URLLimitsRule", "BlockedDomainsRule"]
  deduplicator := some "URLDeduplicator"
  middlewares := ["DNSMiddleware", "CountryMiddleware", "RobotsExclusionMiddleware"]
  filters := ["CountryFilter", "RobotsExclusionFilter"]
  prioritizer := some "MultiFactorPrioritizer"

def downloader : Component where
  name := .downloader
  middlewares := ["ContentTypeMiddleware", "ContentLengthMiddleware"]
  filters := ["ContentTypeFilter", "ContentLengthFilter"]

def parser : Component where
  name := .parser
  middlewares := ["LanguageMiddleware"]
  filters := ["LanguageFilter"]

def storage : Component where
  name := .storage
  final := true

section

variable {rt : Runtime}

/-- `payload.url.hash`. -/
def BuiltURL.hash (url : BuiltURL rt) : String := url.val.hash rt

def BuiltURL.domain (url : BuiltURL rt) : Option String := url.val.domain.map String.ofList

def valueError : Raised := ⟨"builtins.ValueError"⟩
def typeError : Raised := ⟨"builtins.TypeError"⟩

/-- `URL(address)`. -/
def buildURL (address : List Char) : Task rt (BuiltURL rt) :=
  match BuiltURL.ofAddress rt address with
  | some url => pure url
  | none => Proc.raise valueError

/-- `Payload(url, redirects)`. -/
def newPayload (url : BuiltURL rt) (redirects : List Redirect) : Task rt (Payload rt) := do
  let correlationId ← await .uuid
  let discoveredAt ← await .now
  pure { url, redirects, correlationId, discoveredAt }

/-! ## Frontier -/

namespace Frontier

/-- `bucketize` of a domain, which `mmh3` refuses where it is `None`. -/
def bucketize (domain : Option String) : Task rt (String × Nat) :=
  match domain with
  | none => Proc.raise typeError
  | some domain => pure (domain, rt.mmh3 domain % BUCKET_COUNT + 1)

/-- The last part of `process`: the URL and its domain are written. -/
def register : Task rt (Option Error) := do
  let p ← payload
  let (domain, bucket) ← bucketize p.url.domain
  let url : URLModel :=
    { address := p.url.address
      hash := p.url.hash
      domain
      bucket
      priority := p.priority
      correlationId := p.correlationId
      discoveredAt := p.discoveredAt }
  match ← await (.registerUrl url) with
  | .error e => pure (some { message := "Database write failed.", retriable := true, exception := some e })
  | .ok () =>
    match ← await (.saveDomain domain bucket) with
    | .error e => pure (some { message := "Database write failed.", retriable := true, exception := some e })
    | .ok () => do
      emit (.crawlPending .frontier p.correlationId p.url.address)
      pure none

/-- What follows the deduplication. -/
def processNew : Task rt (Option Error) := do
  match ← frontier.filter with
  | .error error => pure (some error)
  | .ok false => pure none
  | .ok true =>
    match ← frontier.prioritize with
    | .error error => pure (some error)
    | .ok priority => do
      Proc.assign (fun p => { p with priority })
      register

/-- `Frontier.process`. -/
def process : Task rt (Option Error) := do
  match ← frontier.rule with
  | .error error => pure (some error)
  | .ok false => pure none
  | .ok true =>
    match ← frontier.deduplicate with
    | .error error => pure (some error)
    | .ok true => pure none
    | .ok false => processNew

end Frontier

/-- The payload `BackQueue._enqueue_new_domain` builds from a document, `none`
where the URL raises. -/
def URLModel.payload (rt : Runtime) (url : URLModel) : Option (Payload rt) :=
  (BuiltURL.ofAddress rt url.address.toList).map (fun built =>
    { url := built
      priority := url.priority
      correlationId := url.correlationId
      discoveredAt := url.discoveredAt })

/-! ## Downloader -/

namespace Downloader

/-- `Crawl(status=CrawlStatus.IN_PROGRESS)`. -/
def newCrawl (id : String) (startedAt finishedAt : DateTime) : Crawl where
  id
  components := []
  values
    | .status => .str CrawlStatus.inProgress.value
    | .request | .response | .content => .none
    | .redirects => .list []
    | .metadata => .dict []
    | .startedAt => .record startedAt
    | .finishedAt => .record finishedAt

/-- The crawl is started, unless the payload has one. -/
def beginCrawl : Task rt (Option Error) := do
  let p ← payload
  if p.crawlId.isSome then pure none
  else do
    let id ← await .uuid
    let startedAt ← await .now
    let finishedAt ← await .now
    match ← await (.startCrawl p.url.hash (newCrawl id startedAt finishedAt)) with
    | .error e => do
      Proc.value (← await (.complete p))
      pure (some { message := "Database write failed.", retriable := true, exception := some e })
    | .ok () => do
      Proc.assign (fun p => { p with crawlId := some id })
      emit (.crawlStart id .downloader p.correlationId p.url.address)
      pure none

/-- `_handle_redirect`. -/
def handleRedirect (response : HTTPResponse rt) : Task rt (Option Error) := do
  let location := (response.headers.get? "location").getD ""
  if location = "" then pure (some { message := "Redirect response missing a Location header.", retriable := false })
  else do
    let p ← payload
    let joined ← Proc.value ((rt.urljoin p.url.val.address location.toList).elim (.error valueError) .ok)
    let target ← buildURL joined
    let redirect : Redirect :=
      { source := p.url.address
        target := target.address
        statusCode := response.statusCode
        depth := p.redirects.length }
    Proc.assign (fun p => { p with redirects := p.redirects ++ [redirect] })
    if MAX_REDIRECT_DEPTH ≤ redirect.depth then
      pure (some { message := "Redirect depth limit exceeded.", retriable := false })
    else do
      let redirectPayload ← newPayload target (← payload).redirects
      publish .process [redirectPayload]
      pure none

def mimeTypes : List MimeType := [.text, .html, .pdf, .unknown]

/-- `MimeType(content_type)`, or `UNKNOWN`. -/
def mimeType : Plain → MimeType
  | .str s => (mimeTypes.find? (fun m => m.value = s)).getD .unknown
  | _ => .unknown

def blobKey (p : Payload rt) : String :=
  p.url.domain.getD "None" ++ "/" ++ p.url.hash ++ "/" ++ p.crawlId.getD "None"

/-- The body is stored and the payload goes on to the Parser. -/
def storePage (response : HTTPResponse rt) : Task rt (Option Error) := do
  let p ← payload
  let contentType := (p.metadata.get? "content_type").getD .none
  let key := blobKey p
  match ← await (.upload response.body key contentType) with
  | .error e => pure (some { message := "Blob upload failed.", retriable := true, exception := some e })
  | .ok () => do
    Proc.assign (fun p => { p with content := some { key, type := (mimeType contentType).value } })
    -- set before the publish, which may raise
    Proc.assign (fun p => { p with published := true })
    publish .parse [← payload]
    pure none

def handleResponse (response : HTTPResponse rt) : Task rt (Option Error) := do
  Proc.assign (fun p => { p with response := some response.toSummary })
  let code := response.statusCode
  if response.isRedirect then handleRedirect response
  else if response.ok then
    match ← downloader.filter with
    | .error error => pure (some error)
    | .ok false => pure none
    | .ok true => storePage response
  else pure (some { message := s!"Response has unacceptable status ({code}).", retriable := false })

/-- The value and the exception of a fetch, as they are reported. -/
def Fetch.response? (fetched : Fetch rt) : Option (HTTPResponse rt) := fetched.outcome.toOption.join

def Fetch.exception? (fetched : Fetch rt) : Option Raised :=
  match fetched.outcome with
  | .error e => some e
  | .ok _ => none

/-- The page is fetched and the fetch reported whatever came of it. -/
def fetchPage : Task rt (Option Error) := do
  let fetched ← await (.fetch { url := (← payload).url.address })
  Proc.assign (fun p => { p with request := some fetched.request.toSummary })
  Proc.value (← await (.report (← payload) (Fetch.response? fetched) (Fetch.exception? fetched)))
  match fetched.outcome with
  | .error e => pure (some { message := "HTTP fetch failed.", retriable := true, exception := some e })
  | .ok none => pure (some { message := "HTTP fetch returned empty response.", retriable := true })
  | .ok (some response) => handleResponse response

/-- `Downloader.download`. -/
def download : Task rt (Option Error) := do
  match ← beginCrawl with
  | some error => pure (some error)
  | none => fetchPage

end Downloader

/-! ## Parser -/

namespace Parser

/-- The URLs of the links that leave the page, each once, in the order they
stand there. -/
def uniqueUrls (current : List Char) :
    List (Json.Value Link) → Dict String (BuiltURL rt) → Task rt (List (BuiltURL rt))
  | [], unique => pure (unique.entries.map Prod.snd)
  | .record link :: links, unique => do
    let url ← buildURL link.target.toList
    if url.val.address = current || url.address ∈ unique.keys then uniqueUrls current links unique
    else uniqueUrls current links (unique.set url.address url)
  | _ :: links, unique => uniqueUrls current links unique

def newPayloads : List (BuiltURL rt) → Task rt (List (Payload rt))
  | [] => pure []
  | url :: urls => do
    let p ← newPayload url []
    let ps ← newPayloads urls
    pure (p :: ps)

/-- `_filter_and_publish_links`. -/
def filterAndPublishLinks : Json.Value Link → Task rt Unit
  | .list links => do
    let urls ← uniqueUrls (← payload).url.val.address links .empty
    match ← await (.areUrlsSeen urls) with
    | .error _ => pure ()
    | .ok seen => do
      let unseen := ((urls.zip seen).filter (fun e => !e.2)).map Prod.fst
      let payloads ← newPayloads unseen
      publish .process payloads
  | _ => pure ()

/-- The results of the extractors by their names; a failed one is left out. -/
def collect : List ExtractorResult → Dict String (Json.Value Link) → Task rt (Dict String (Json.Value Link))
  | [], extracted => pure extracted
  | result :: results, extracted =>
    if result.exception.isSome then collect results extracted
    else do
      if result.callback then filterAndPublishLinks result.data
      collect results (extracted.set result.name result.data)

def extractedValue (extracted : Dict String (Json.Value Link)) : Json.Value Link :=
  .dict (extracted.entries.map (fun e => (.str e.1, e.2)))

def setExtracted (extracted : Dict String (Json.Value Link)) (p : Payload rt) : Payload rt :=
  { p with content := p.content.map (fun c => { c with extracted := extractedValue extracted }) }

/-- What follows the extraction. -/
def finish (extracted : Dict String (Json.Value Link)) : Task rt (Option Error) := do
  Proc.assign (setExtracted extracted)
  let proceed ← parser.filter
  Proc.assign (setExtracted (extracted.erase "text"))
  match proceed with
  | .error error => pure (some error)
  | .ok false => pure none
  | .ok true => do
    Proc.assign (fun p => { p with published := true })
    publish .store [← payload]
    pure none

/-- `Parser.parse`. -/
def parse : Task rt (Option Error) := do
  match (← payload).content with
  | none => pure (some { message := "Payload has no content.", retriable := false })
  | some content =>
    match ← await (.download content.key) with
    | .error e => pure (some { message := "Blob download failed.", retriable := true, exception := some e })
    | .ok none => pure (some { message := "Blob downloaded content is empty.", retriable := false })
    | .ok (some contents) => do
      let results ← Proc.value (← await (.extract (← payload) contents))
      if results = [] then pure (some { message := "No matching extractors for content.", retriable := false })
      else finish (← collect results .empty)

end Parser

/-! ## Storage -/

namespace Storage

/-- `Storage.store`. -/
def store : Task rt (Option Error) := do
  let p ← payload
  match p.content, p.response with
  | some _, some response =>
    match ← await (.updateDomainMetrics p.url.val.domain p.url.val.port response.elapsedMs response.sizeBytes) with
    | .error e => pure (some { message := "Cache write failed.", retriable := true, exception := some e })
    | .ok () => pure none
  | _, _ => pure (some { message := "Payload has no content or response.", retriable := false })

end Storage

/-! ## Handlers -/

/-- What a component does with a payload. -/
def handler : ComponentName → Task rt Unit
  | .frontier => frontier.handle Frontier.process
  | .downloader => downloader.handle Downloader.download
  | .parser => parser.handle Parser.parse
  | .storage => storage.handle Storage.store

/-- The component that subscribes to a topic. -/
def Topic.consumer : Topic → ComponentName
  | .process => .frontier
  | .parse => .parser
  | .store => .storage

end

end Linksurf.Pipeline
