import Linksurf.Stages
import Linksurf.Wire

/-!
# Middlewares with a cache

`linksurf/components/frontier/middlewares.py` over `RedisCache`. A middleware
asks the cache, on a miss a service, and decides by the record it got either
way. The decision takes no further calls, so the two runs differ in nothing but
the record, and the record survives being written and read.
-/
namespace Linksurf.Pipeline

open Coroutine
open Dicts (Dict)
open Json (Plain)

/-- The codecs, `str.strip`, `str` of a value and the `RobotFileParser` of a
text, which may raise. -/
structure Texts where
  decode : String → List Nat → String
  strip : String → String
  str : Plain → String
  canFetch : String → String → String → Except Raised Bool
  crawlDelay : String → String → Except Raised Plain

/-- What the middlewares ask Redis, the network and the fetcher. -/
inductive Query (rt : Runtime) where
  | hgetall (key : String)
  | hset (key : String) (mapping : Dict String String)
  | expire (key : String) (seconds : Int)
  | checkDomainAvailability (domain : Option String) (port : Nat)
  | http (request : HTTPRequest)

@[reducible] def Query.Reply {rt : Runtime} : Query rt → Type
  | .hgetall _ => Except Raised (Dict String String)
  | .hset _ _ => Except Raised Unit
  | .expire _ _ => Except Raised Unit
  | .checkDomainAvailability _ _ => Bool × Option String
  | .http _ => Except Raised (HTTPResponse rt)

abbrev Lookup (rt : Runtime) (α : Type) := Proc (Query rt) Query.Reply Raised (Payload rt) α

def ONE_DAY_IN_SECONDS : Int := 86400

def REDIRECT_LOOP_STATUS_CODE : Int := 0

structure RobotsRecord where
  statusCode : Int
  contentType : Option String
  text : String
  deriving DecidableEq

section

variable {rt : Runtime}

abbrev ask (query : Query rt) : Lookup rt query.Reply := Proc.call query

def HTTPResponse.contentType (r : HTTPResponse rt) : Option String := r.headers.get? "content-type"

/-- `HTTPResponse.text`. -/
def HTTPResponse.text (texts : Texts) (r : HTTPResponse rt) : String := texts.decode (r.encoding.getD "utf-8") r.body

def BuiltURL.origin (url : BuiltURL rt) : String :=
  String.ofList url.val.scheme ++ "://" ++ String.ofList url.val.netloc

/-- `text or None`. -/
def nonEmpty (text : String) : Option String := if text = "" then none else some text

/-! ## The cache -/

namespace RedisCache

def key (suffix : String) (domain : Option String) (port : Nat) : String :=
  "linksurf:domain:" ++ domain.getD "None" ++ "@" ++ toString port ++ suffix

def statusKey := key ":status"
def robotsKey := key ":robots"
def countryKey := key ":country"

/-- Both commands of a `save_domain_*`. -/
def save (key : String) (mapping : Dict String String) : Lookup rt Unit := do
  Proc.value (← ask (.hset key mapping))
  Proc.value (← ask (.expire key ONE_DAY_IN_SECONDS))

def encodeStatus (available : Bool) (ip : Option String) : Dict String String :=
  (Dict.empty.set "available" (if available then "1" else "0")).set "ip" (ip.getD "")

def decodeStatus (cached : Dict String String) : Option (Bool × Option String) :=
  if cached.entries = [] then none
  else some (cached.get? "available" = some "1", (cached.get? "ip").bind nonEmpty)

def saveDomainStatus (domain : Option String) (port : Nat) (available : Bool) (ip : Option String) : Lookup rt Unit :=
  save (statusKey domain port) (encodeStatus available ip)

def getDomainStatus (domain : Option String) (port : Nat) : Lookup rt (Option (Bool × Option String)) := do
  let cached ← Proc.value (← ask (.hgetall (statusKey domain port)))
  pure (decodeStatus cached)

def encodeRobotsTxt (record : RobotsRecord) : Dict String String :=
  ((Dict.empty.set "status_code" record.statusCode.repr).set "content_type" (record.contentType.getD "")).set
    "text" record.text

/-- `int(data["status_code"])` raises where there is none. -/
def decodeRobotsTxt (data : Dict String String) : Except Raised (Option RobotsRecord) :=
  if data.entries = [] then .ok none
  else
    match data.get? "status_code" with
    | none => .error ⟨"builtins.KeyError"⟩
    | some code =>
      match code.toInt? with
      | none => .error ⟨"builtins.ValueError"⟩
      | some statusCode => .ok (some ⟨statusCode, data.get? "content_type", (data.get? "text").getD ""⟩)

def saveDomainRobotsTxt (domain : Option String) (port : Nat) (record : RobotsRecord) : Lookup rt Unit :=
  save (robotsKey domain port) (encodeRobotsTxt record)

def getDomainRobotsTxt (domain : Option String) (port : Nat) : Lookup rt (Option RobotsRecord) := do
  let data ← Proc.value (← ask (.hgetall (robotsKey domain port)))
  Proc.value (decodeRobotsTxt data)

def encodeCountry (code : Option String) : Dict String String := Dict.empty.set "code" (code.getD "")

/-- `found, code`. -/
def decodeCountry (cached : Dict String String) : Bool × Option String :=
  if cached.entries = [] then (false, none) else (true, (cached.get? "code").bind nonEmpty)

def saveDomainCountry (domain : Option String) (port : Nat) (code : Option String) : Lookup rt Unit :=
  save (countryKey domain port) (encodeCountry code)

def getDomainCountry (domain : Option String) (port : Nat) : Lookup rt (Bool × Option String) := do
  let cached ← Proc.value (← ask (.hgetall (countryKey domain port)))
  pure (decodeCountry cached)

end RedisCache

/-! ## The middlewares -/

/-- A response with an error for an exception. -/
def failed (message : String) (e : Raised) : Response Unit :=
  ⟨none, some { message, retriable := true, exception := some e }⟩

/-- `payload.add_metadata(key, value)` and the response with the payload. -/
def addMetadata (key : String) (value : Plain) : Lookup rt (Response Unit) := do
  Proc.assign (fun p => { p with metadata := p.metadata.set key value })
  pure ⟨some (), none⟩

namespace DNSMiddleware

def metadata (ip : String) : Plain := .dict [(.str "available", .bool true), (.str "ip", .str ip)]

def unreachable : Response Unit :=
  ⟨none, some { message := "URL is invalid or unreachable.", retriable := true, delaySeconds := some ONE_DAY_IN_SECONDS }⟩

def conclude : Bool × Option String → Lookup rt (Response Unit)
  | (true, some ip) => addMetadata "dns" (metadata ip)
  | _ => pure unreachable

def execute : Lookup rt (Response Unit) := do
  let p ← Proc.read
  match ← Proc.attempt (RedisCache.getDomainStatus p.url.domain p.url.val.port) with
  | .error e => pure (failed "Cache lookup failed." e)
  | .ok (some status) => conclude status
  | .ok none => do
    let status ← ask (.checkDomainAvailability p.url.domain p.url.val.port)
    match ← Proc.attempt (RedisCache.saveDomainStatus p.url.domain p.url.val.port status.1 status.2) with
    | .error e => pure (failed "Cache write failed." e)
    | .ok () => conclude status

end DNSMiddleware

def attributeError : Raised := ⟨"builtins.AttributeError"⟩

/-- Whether Python takes a value for true. -/
def truthy : Plain → Bool
  | .none => false
  | .bool b => b
  | .int n => n ≠ 0
  | .float x => x ≠ 0
  | .str s => s ≠ ""
  | .list xs | .tuple xs => !xs.isEmpty
  | .dict es => !es.isEmpty
  | .record _ | .other => true

namespace IPInfoClient

/-- `lookup`; the request is answered as the token allows. -/
def lookup (texts : Texts) (token ip : String) : Lookup rt (Option String) := do
  let request : HTTPRequest := { url := "https://api.ipinfo.io/lite/" ++ ip ++ "/country_code?token=" ++ token }
  let response ← Proc.value (← ask (.http request))
  if response.ok then pure (nonEmpty (texts.strip (response.text texts)))
  else Proc.raise ⟨"linksurf.utils.geoip.IPInfoError"⟩

end IPInfoClient

namespace CountryMiddleware

/-- `(payload.get_metadata("dns") or {}).get("ip")`. -/
def ip (p : Payload rt) : Except Raised (Option Plain) :=
  match p.metadata.get? "dns" with
  | none => .ok none
  | some (.dict entries) =>
    match entries.find? (fun e => e.1 = .str "ip") with
    | none | some (_, .none) => .ok none
    | some (_, ip) => .ok (some ip)
  | some dns => if truthy dns then .error attributeError else .ok none

def country (code : Option String) : Plain := code.elim .none .str

def conclude (code : Option String) : Lookup rt (Response Unit) := addMetadata "country" (country code)

def execute (texts : Texts) (token : String) : Lookup rt (Response Unit) := do
  let p ← Proc.read
  match p.url.domain with
  | none => Proc.raise attributeError
  | some domain =>
    if ".br".toList <:+ domain.toList then addMetadata "country" (.str "BR")
    else
      match ← Proc.value (ip p) with
      | none => conclude none
      | some ip =>
        match ← Proc.attempt (RedisCache.getDomainCountry (some domain) p.url.val.port) with
        | .error e => pure (failed "Cache lookup failed." e)
        | .ok (true, code) => conclude code
        | .ok (false, _) =>
          match ← Proc.attempt (IPInfoClient.lookup texts token (texts.str ip)) with
          | .error e => pure (failed "GeoIP lookup failed." e)
          | .ok code =>
            match ← Proc.attempt (RedisCache.saveDomainCountry (some domain) p.url.val.port code) with
            | .error e => pure (failed "Cache write failed." e)
            | .ok () => conclude code

end CountryMiddleware

namespace RobotsExclusionMiddleware

def maxRedirectsError : Raised := ⟨"linksurf.services.fetcher.MaxRedirectsError"⟩

/-- `_fetch`. -/
def fetch (texts : Texts) : Lookup rt (Except Error RobotsRecord) := do
  let request : HTTPRequest := { url := (← Proc.read).url.origin ++ "/robots.txt", followRedirects := true }
  match ← ask (.http request) with
  | .error e =>
    if e = maxRedirectsError then pure (.ok ⟨REDIRECT_LOOP_STATUS_CODE, none, ""⟩)
    else pure (.error { message := "HTTP fetch failed.", retriable := true, exception := some e })
  | .ok response =>
    let text := if response.statusCode = 200 then response.text texts else ""
    pure (.ok ⟨response.statusCode, response.contentType, text⟩)

def denied (message : String) : Error := { message, retriable := true, delaySeconds := some ONE_DAY_IN_SECONDS }

/-- `content_type.split(";")[0].strip() if content_type else None`. -/
def mediaType (texts : Texts) (contentType : Option String) : Option String :=
  (contentType.bind nonEmpty).map (fun s => texts.strip (String.ofList (s.toList.takeWhile (· ≠ ';'))))

/-- `_validate`: available, can_fetch and delay, or an error. -/
def validate (texts : Texts) (identifier : String) (record : RobotsRecord) (url : String) :
    Except Raised (Except Error (Bool × Bool × Plain)) :=
  if record.statusCode = 403 then .ok (.error (denied "Robots Exclusion Protocol access denied."))
  else if record.statusCode = 429 then .ok (.error (denied "Robots Exclusion Protocol rate limited."))
  else if record.statusCode = REDIRECT_LOOP_STATUS_CODE then .ok (.ok (false, true, .none))
  else if 400 ≤ record.statusCode ∧ record.statusCode < 500 then .ok (.ok (false, true, .none))
  else if 500 ≤ record.statusCode ∧ record.statusCode < 600 then .ok (.ok (false, false, .none))
  else if record.statusCode = 200 then
    if mediaType texts record.contentType ≠ some MimeType.text.value then .ok (.ok (false, true, .none))
    else do
      let canFetch ← texts.canFetch record.text identifier url
      let delay ← texts.crawlDelay record.text identifier
      return .ok (true, canFetch, delay)
  else .ok (.ok (false, false, .none))

def metadata (available canFetch : Bool) (delay : Plain) (cached : Bool) : Plain :=
  .dict [(.str "available", .bool available), (.str "can_fetch", .bool canFetch), (.str "delay", delay),
    (.str "cache_hit", .bool cached)]

def conclude (texts : Texts) (identifier : String) (record : RobotsRecord) (cached : Bool) : Lookup rt (Response Unit) := do
  match ← Proc.value (validate texts identifier record (← Proc.read).url.address) with
  | .error error => pure ⟨none, some error⟩
  | .ok (available, canFetch, delay) => addMetadata "robots" (metadata available canFetch delay cached)

def execute (texts : Texts) (identifier : String) : Lookup rt (Response Unit) := do
  let p ← Proc.read
  match ← Proc.attempt (RedisCache.getDomainRobotsTxt p.url.domain p.url.val.port) with
  | .error e => pure (failed "Cache lookup failed." e)
  | .ok (some record) => conclude texts identifier record true
  | .ok none =>
    match ← fetch texts with
    | .error error => pure ⟨none, some error⟩
    | .ok record =>
      match ← Proc.attempt (RedisCache.saveDomainRobotsTxt p.url.domain p.url.val.port record) with
      | .error e => pure (failed "Cache write failed." e)
      | .ok () => conclude texts identifier record false

end RobotsExclusionMiddleware

/-! ## Redis -/

/-- The hashes by their keys, empty where there is none, and what a run has done
with them: the lookup has answered, the entry is saved. -/
structure Redis where
  hashes : String → Dict String String
  looked : Bool := false
  saved : Bool := false

namespace Redis

/-- `HSET` of the fields. -/
def hset (s : Redis) (key : String) (mapping : Dict String String) : Redis :=
  { s with hashes := Function.update s.hashes key (mapping.entries.foldl (fun d e => d.set e.1 e.2) (s.hashes key)) }

/-- Hash fields are stored as strings; a failed write may have taken effect. A
reachable domain has an IP. -/
def Follows (s : Redis) : (query : Query rt) → query.Reply → Redis → Prop
  | .hgetall key, .ok fields, t => fields = s.hashes key ∧ t = { s with looked := true }
  | .hgetall _, .error _, t => t = s
  | .hset key mapping, .ok (), t => t = s.hset key mapping
  | .hset key mapping, .error _, t => t = s ∨ t = s.hset key mapping
  | .expire _ _, .ok (), t => t = { s with saved := true }
  | .expire _ _, .error _, t => t = s
  | .checkDomainAvailability _ _, status, t =>
    (status = (false, none) ∨ ∃ ip, ip ≠ "" ∧ status = (true, some ip)) ∧ t = s
  | .http _, _, t => t = s

def rules : Coro.Rules (Query rt) Query.Reply Redis := ⟨fun _ _ => True, Follows⟩

end Redis

/-! ## Records that are written and read -/

namespace RedisCache

theorem decodeStatus_encodeStatus (available : Bool) (ip : Option String) :
    decodeStatus (encodeStatus available ip) = some (available, ip.bind nonEmpty) := by
  have hip : (some (ip.getD "")).bind nonEmpty = ip.bind nonEmpty := by cases ip <;> rfl
  unfold decodeStatus
  rw [if_neg (by simp [encodeStatus, Dict.set, Dict.empty, Dict.keys])]
  rw [encodeStatus, Dict.get?_set_same, Dict.get?_set_other _ (by decide), Dict.get?_set_same, hip]
  cases available <;> rfl

theorem decodeCountry_encodeCountry (code : Option String) :
    decodeCountry (encodeCountry code) = (true, code.bind nonEmpty) := by
  have hcode : (some (code.getD "")).bind nonEmpty = code.bind nonEmpty := by cases code <;> rfl
  unfold decodeCountry
  rw [if_neg (by simp [encodeCountry, Dict.set, Dict.empty, Dict.keys])]
  rw [encodeCountry, Dict.get?_set_same, hcode]

/-- Only that there was no content type is lost. -/
theorem decodeRobotsTxt_encodeRobotsTxt (record : RobotsRecord) :
    decodeRobotsTxt (encodeRobotsTxt record) = .ok (some { record with contentType := some (record.contentType.getD "") }) := by
  have hcode : (encodeRobotsTxt record).get? "status_code" = some record.statusCode.repr := by
    rw [encodeRobotsTxt, Dict.get?_set_other _ (by decide), Dict.get?_set_other _ (by decide), Dict.get?_set_same]
  have htype : (encodeRobotsTxt record).get? "content_type" = some (record.contentType.getD "") := by
    rw [encodeRobotsTxt, Dict.get?_set_other _ (by decide), Dict.get?_set_same]
  have htext : (encodeRobotsTxt record).get? "text" = some record.text := by
    rw [encodeRobotsTxt, Dict.get?_set_same]
  unfold decodeRobotsTxt
  rw [if_neg (by simp [encodeRobotsTxt, Dict.set, Dict.empty, Dict.keys]), hcode, htype, htext]
  simp

end RedisCache

/-- The validation takes an empty content type for none. -/
theorem RobotsExclusionMiddleware.validate_contentType (texts : Texts) (identifier : String) (record : RobotsRecord)
    (url : String) :
    validate texts identifier { record with contentType := some (record.contentType.getD "") } url =
      validate texts identifier record url := by
  have htype : mediaType texts (some (record.contentType.getD "")) = mediaType texts record.contentType := by
    cases record.contentType <;> rfl
  simp only [validate, htype]

/-! ## Runs -/

variable {p q p' q' : Payload rt} {s t s' t' : Redis} {key : String}

theorem Redis.hashes_hset {mapping : Dict String String} (h : (s.hashes key).entries = []) :
    (s.hset key mapping).hashes key = mapping := by
  change Function.update _ _ _ key = _
  rw [Function.update_self, Dict.foldl_set_entries mapping h]

/-- An entry is saved whole, or the save raises. -/
theorem keeps_save {mapping : Dict String String} {Q : Except Raised Unit → Payload rt → Redis → Prop}
    (hok : Q (.ok ()) p { s.hset key mapping with saved := true })
    (herror : ∀ e t, t.saved = s.saved → Q (.error e) p t) :
    Proc.Keeps Redis.rules Q (RedisCache.save key mapping) p s := by
  refine Proc.keeps_step trivial (fun written t hfollows => ?_)
  cases written with
  | error e =>
    obtain rfl | rfl := hfollows
    · exact herror e _ rfl
    · exact herror e _ rfl
  | ok _ =>
    obtain rfl := hfollows
    refine Proc.keeps_step trivial (fun expiring t hfollows => ?_)
    cases expiring with
    | error e =>
      obtain rfl := hfollows
      exact herror e _ rfl
    | ok _ =>
      obtain rfl := hfollows
      exact hok

/-- The fields of an entry as they are, or the lookup raises. -/
theorem keeps_hgetall {α : Type} {f : Dict String String → Lookup rt α} {Q : Except Raised α → Payload rt → Redis → Prop}
    (hok : Proc.Keeps Redis.rules Q (f (s.hashes key)) p { s with looked := true }) (herror : ∀ e, Q (.error e) p s) :
    Proc.Keeps Redis.rules Q (ask (.hgetall key) >>= fun fields => Proc.value fields >>= f) p s := by
  refine Proc.keeps_step trivial (fun fields t hfollows => ?_)
  cases fields with
  | error e =>
    obtain rfl := hfollows
    exact herror e
  | ok fields =>
    obtain ⟨rfl, rfl⟩ := hfollows
    exact hok

/-- A run that saved an entry, and what it concluded from. -/
def Missed {R : Type} (key : String) (encode : R → Dict String String) (conclude : R → Lookup rt (Response Unit))
    (p : Payload rt) (r : Except Raised (Response Unit)) (q : Payload rt) (t : Redis) : Prop :=
  t.saved = true → ∃ record, t.hashes key = encode record ∧ conclude record p = .ret (r, q)

/-- A run that found an entry. -/
def Found {R : Type} (record : R) (conclude : R → Lookup rt (Response Unit)) (p : Payload rt)
    (r : Except Raised (Response Unit)) (q : Payload rt) (t : Redis) : Prop :=
  t.looked = true → conclude record p = .ret (r, q)

/-- A run without a saved entry is not asked about. -/
theorem missed_of_unsaved {R : Type} {encode : R → Dict String String} {conclude : R → Lookup rt (Response Unit)}
    {r : Except Raised (Response Unit)} (h : s.saved = false) (ht : t.saved = s.saved) :
    Missed key encode conclude p r q t := by
  intro hsaved
  rw [ht, h] at hsaved
  cases hsaved

/-! ### DNS -/

namespace DNSMiddleware

theorem conclude_ret (status : Bool × Option String) (p : Payload rt) : ∃ r q, conclude status p = .ret (r, q) := by
  unfold conclude
  split <;> exact ⟨_, _, rfl⟩

/-- What `check_domain_availability` may answer has no empty IP. -/
abbrev Status : Type := { status : Bool × Option String // status.2.bind nonEmpty = status.2 }

def encode (status : Status) : Dict String String := RedisCache.encodeStatus status.val.1 status.val.2

theorem keeps_execute_missed (h : s.saved = false) :
    Proc.Keeps Redis.rules (Missed (RedisCache.statusKey p.url.domain p.url.val.port) encode (fun status => conclude status.val) p)
      execute p s := by
  rw [execute, Proc.keeps_bind, Proc.keeps_read, Proc.after_ok, Proc.keeps_bind, Proc.keeps_attempt]
  apply keeps_hgetall
  · rw [Proc.keeps_pure, Proc.after_ok]
    cases hdecode : RedisCache.decodeStatus (s.hashes (RedisCache.statusKey p.url.domain p.url.val.port)) with
    | some status =>
      obtain ⟨r, q, hret⟩ := conclude_ret status p
      exact Proc.keeps_of_ret hret (missed_of_unsaved h rfl)
    | none =>
      have hempty : (s.hashes (RedisCache.statusKey p.url.domain p.url.val.port)).entries = [] := by
        unfold RedisCache.decodeStatus at hdecode
        split at hdecode
        · assumption
        · cases hdecode
      refine Proc.keeps_step trivial (fun status t hfollows => ?_)
      obtain ⟨hstatus, rfl⟩ := hfollows
      have hip : status.2.bind nonEmpty = status.2 := by
        obtain rfl | ⟨ip, hip, rfl⟩ := hstatus
        · rfl
        · exact if_neg hip
      rw [Proc.keeps_bind, Proc.keeps_attempt]
      apply keeps_save
      · obtain ⟨r, q, hret⟩ := conclude_ret status p
        exact Proc.keeps_of_ret hret (fun _ => ⟨⟨status, hip⟩, Redis.hashes_hset hempty, hret⟩)
      · exact fun e t ht => missed_of_unsaved h ht
  · exact fun e => missed_of_unsaved h rfl

theorem keeps_execute_found {status : Status} (h : s.looked = false)
    (hentry : s.hashes (RedisCache.statusKey p.url.domain p.url.val.port) = encode status) :
    Proc.Keeps Redis.rules (Found status (fun status => conclude status.val) p) execute p s := by
  rw [execute, Proc.keeps_bind, Proc.keeps_read, Proc.after_ok, Proc.keeps_bind, Proc.keeps_attempt]
  apply keeps_hgetall
  · rw [Proc.keeps_pure, Proc.after_ok, hentry, encode, RedisCache.decodeStatus_encodeStatus, status.property]
    obtain ⟨r, q, hret⟩ := conclude_ret status.val p
    exact Proc.keeps_of_ret hret (fun _ => hret)
  · intro e hlooked
    rw [h] at hlooked
    cases hlooked

end DNSMiddleware

/-! ### Country -/

namespace CountryMiddleware

/-- A code that `lookup` may return. -/
abbrev Code : Type := { code : Option String // code.bind nonEmpty = code }

/-- The DNS metadata of the payload has an IP. -/
def Located (p : Payload rt) : Prop := ∃ v, ip p = .ok (some v)

/-- A code that is looked up is not empty. -/
theorem keeps_lookup {texts : Texts} {token address : String}
    {Q : Except Raised (Option String) → Payload rt → Redis → Prop}
    (hok : ∀ code : Code, Q (.ok code.val) p s) (herror : ∀ e, Q (.error e) p s) :
    Proc.Keeps Redis.rules Q (IPInfoClient.lookup texts token address) p s := by
  refine Proc.keeps_step trivial (fun response t hfollows => ?_)
  obtain rfl := hfollows
  cases response with
  | error e => exact herror e
  | ok response =>
    change Proc.Keeps _ _ (if response.ok = true then _ else _) _ _
    split
    · refine hok ⟨nonEmpty (texts.strip (response.text texts)), ?_⟩
      unfold nonEmpty
      split
      · rfl
      · rename_i hne
        exact if_neg hne
    · exact herror _

variable {texts : Texts} {token : String}

def encode (code : Code) : Dict String String := RedisCache.encodeCountry code.val

theorem conclude_ret (code : Option String) (p : Payload rt) : ∃ r q, conclude code p = .ret (r, q) := ⟨_, _, rfl⟩

/-- The country of the payload is looked up. -/
structure Asked (p : Payload rt) (name : String) : Prop where
  domain : p.url.domain = some name
  other : ¬ ".br".toList <:+ name.toList
  located : Located p

theorem keeps_execute_missed (h : s.saved = false) :
    Proc.Keeps Redis.rules (fun r q t =>
      Missed (RedisCache.countryKey p.url.domain p.url.val.port) encode (fun code => conclude code.val) p r q t ∧
        (t.saved = true → ∃ domain, Asked p domain)) (execute texts token) p s := by
  have hunsaved {r : Except Raised (Response Unit)} {q : Payload rt} {t : Redis} (ht : t.saved = s.saved) :
      Missed (RedisCache.countryKey p.url.domain p.url.val.port) encode (fun code => conclude code.val) p r q t ∧
        (t.saved = true → ∃ domain, Asked p domain) := by
    refine ⟨missed_of_unsaved h ht, ?_⟩
    intro hsaved
    rw [ht, h] at hsaved
    cases hsaved
  rw [execute, Proc.keeps_bind, Proc.keeps_read, Proc.after_ok]
  split
  · exact hunsaved rfl
  rename_i domain hdomain
  split
  · exact hunsaved rfl
  rename_i hother
  rw [hdomain] at hunsaved
  rw [hdomain, Proc.keeps_bind, Proc.keeps_value]
  cases hip : ip p with
  | error e => exact hunsaved rfl
  | ok address =>
    cases address with
    | none => exact hunsaved rfl
    | some address =>
      rw [Proc.after_ok]
      dsimp only
      rw [Proc.keeps_bind, Proc.keeps_attempt]
      apply keeps_hgetall
      · rw [Proc.keeps_pure, Proc.after_ok]
        cases hdecode : RedisCache.decodeCountry (s.hashes (RedisCache.countryKey (some domain) p.url.val.port)) with
        | mk found code =>
          cases found with
          | true =>
            obtain ⟨r, q, hret⟩ := conclude_ret code p
            exact Proc.keeps_of_ret hret (hunsaved rfl)
          | false =>
            have hempty : (s.hashes (RedisCache.countryKey (some domain) p.url.val.port)).entries = [] := by
              unfold RedisCache.decodeCountry at hdecode
              split at hdecode
              · assumption
              · cases hdecode
            dsimp only
            rw [Proc.keeps_bind, Proc.keeps_attempt]
            apply keeps_lookup
            · intro code
              rw [Proc.after_ok]
              dsimp only
              rw [Proc.keeps_bind, Proc.keeps_attempt]
              apply keeps_save
              · obtain ⟨r, q, hret⟩ := conclude_ret code.val p
                rw [Proc.after_ok]
                refine Proc.keeps_of_ret hret ?_
                exact ⟨fun _ => ⟨code, Redis.hashes_hset hempty, hret⟩, fun _ => ⟨domain, hdomain, hother, _, hip⟩⟩
              · exact fun e t ht => hunsaved ht
            · exact fun e => hunsaved rfl
      · exact fun e => hunsaved rfl

theorem keeps_execute_found {code : Code} {domain : String} (h : s.looked = false) (hasked : Asked p domain)
    (hentry : s.hashes (RedisCache.countryKey p.url.domain p.url.val.port) = encode code) :
    Proc.Keeps Redis.rules (Found code (fun code => conclude code.val) p) (execute texts token) p s := by
  obtain ⟨hdomain, hother, address, hip⟩ := hasked
  rw [hdomain] at hentry
  rw [execute, Proc.keeps_bind, Proc.keeps_read, Proc.after_ok, hdomain]
  dsimp only
  rw [if_neg hother, Proc.keeps_bind, Proc.keeps_value, hip, Proc.after_ok]
  dsimp only
  rw [Proc.keeps_bind, Proc.keeps_attempt]
  apply keeps_hgetall
  · rw [Proc.keeps_pure, Proc.after_ok, hentry, encode, RedisCache.decodeCountry_encodeCountry, code.property]
    obtain ⟨r, q, hret⟩ := conclude_ret code.val p
    exact Proc.keeps_of_ret hret (fun _ => hret)
  · intro e hlooked
    rw [h] at hlooked
    cases hlooked

end CountryMiddleware

/-! ### Robots -/

namespace RobotsExclusionMiddleware

variable {texts : Texts} {identifier : String}

theorem conclude_ret (record : RobotsRecord) (cached : Bool) (p : Payload rt) :
    ∃ r q, conclude texts identifier record cached p = .ret (r, q) := by
  change ∃ r q, (Proc.value (validate texts identifier record p.url.address) >>= _ : Lookup rt (Response Unit)) p = _
  cases validate texts identifier record p.url.address with
  | error e => exact ⟨_, _, rfl⟩
  | ok decision =>
    cases decision with
    | error error => exact ⟨_, _, rfl⟩
    | ok decision => exact ⟨_, _, rfl⟩

theorem keeps_fetch {Q : Except Raised (Except Error RobotsRecord) → Payload rt → Redis → Prop}
    (hQ : ∀ r, Q r p s) : Proc.Keeps Redis.rules Q (fetch texts) p s := by
  rw [fetch, Proc.keeps_bind, Proc.keeps_read, Proc.after_ok]
  refine Proc.keeps_step trivial (fun response t hfollows => ?_)
  obtain rfl := hfollows
  cases response with
  | error e =>
    change Proc.Keeps _ _ (if e = maxRedirectsError then _ else _) _ _
    split <;> exact hQ _
  | ok response => exact hQ _

theorem keeps_execute_missed (h : s.saved = false) :
    Proc.Keeps Redis.rules (Missed (RedisCache.robotsKey p.url.domain p.url.val.port) RedisCache.encodeRobotsTxt
      (fun record => conclude texts identifier record false) p) (execute texts identifier) p s := by
  rw [execute, Proc.keeps_bind, Proc.keeps_read, Proc.after_ok, Proc.keeps_bind, Proc.keeps_attempt]
  apply keeps_hgetall
  · rw [Proc.keeps_value]
    cases hdecode : RedisCache.decodeRobotsTxt (s.hashes (RedisCache.robotsKey p.url.domain p.url.val.port)) with
    | error e => exact missed_of_unsaved h rfl
    | ok record =>
      cases record with
      | some record =>
        obtain ⟨r, q, hret⟩ := conclude_ret record true p
        exact Proc.keeps_of_ret hret (missed_of_unsaved h rfl)
      | none =>
        have hempty : (s.hashes (RedisCache.robotsKey p.url.domain p.url.val.port)).entries = [] := by
          unfold RedisCache.decodeRobotsTxt at hdecode
          split at hdecode
          · assumption
          · split at hdecode
            · cases hdecode
            · split at hdecode <;> cases hdecode
        rw [Proc.after_ok]
        dsimp only
        rw [Proc.keeps_bind]
        apply keeps_fetch
        intro fetched
        cases fetched with
        | error e => exact missed_of_unsaved h rfl
        | ok fetched =>
          cases fetched with
          | error error => exact missed_of_unsaved h rfl
          | ok record =>
            rw [Proc.after_ok]
            dsimp only
            rw [Proc.keeps_bind, Proc.keeps_attempt]
            apply keeps_save
            · obtain ⟨r, q, hret⟩ := conclude_ret record false p
              exact Proc.keeps_of_ret hret (fun _ => ⟨record, Redis.hashes_hset hempty, hret⟩)
            · exact fun e t ht => missed_of_unsaved h ht
  · exact fun e => missed_of_unsaved h rfl

theorem keeps_execute_found {record : RobotsRecord} (h : s.looked = false)
    (hentry : s.hashes (RedisCache.robotsKey p.url.domain p.url.val.port) = RedisCache.encodeRobotsTxt record) :
    Proc.Keeps Redis.rules (Found record (fun record => conclude texts identifier record true) p)
      (execute texts identifier) p s := by
  rw [execute, Proc.keeps_bind, Proc.keeps_read, Proc.after_ok, Proc.keeps_bind, Proc.keeps_attempt]
  apply keeps_hgetall
  · rw [Proc.keeps_value, hentry, RedisCache.decodeRobotsTxt_encodeRobotsTxt, Proc.after_ok]
    dsimp only
    have hsame : (conclude texts identifier { record with contentType := some (record.contentType.getD "") } true :
        Lookup rt (Response Unit)) = conclude texts identifier record true := by
      simp only [conclude, validate_contentType]
    rw [hsame]
    obtain ⟨r, q, hret⟩ := conclude_ret record true p
    exact Proc.keeps_of_ret hret (fun _ => hret)
  · intro e hlooked
    rw [h] at hlooked
    cases hlooked

end RobotsExclusionMiddleware

/-! ## Cached and fresh -/

/-- A value without its flag for the cache. -/
def withoutCacheHit : Plain → Plain
  | .dict entries => .dict (entries.filter (fun e => e.1 ≠ .str "cache_hit"))
  | v => v

/-- The same response, and the same metadata added up to the flag. -/
structure Alike (p p' : Payload rt) (r r' : Except Raised (Response Unit)) (q q' : Payload rt) : Prop where
  response : r' = r
  metadata : (q = p ∧ q' = p') ∨ ∃ key v v', withoutCacheHit v' = withoutCacheHit v ∧
    q = { p with metadata := p.metadata.set key v } ∧ q' = { p' with metadata := p'.metadata.set key v' }

theorem addMetadata_alike {field : String} {v v' : Plain} {r r' : Except Raised (Response Unit)}
    (hv : withoutCacheHit v' = withoutCacheHit v) (h : addMetadata field v p = .ret (r, q))
    (h' : addMetadata field v' p' = .ret (r', q')) : Alike p p' r r' q q' := by
  cases h
  cases h'
  exact ⟨rfl, .inr ⟨field, v, v', hv, rfl, rfl⟩⟩

theorem pure_alike {response : Response Unit} {r r' : Except Raised (Response Unit)}
    (h : (pure response : Lookup rt (Response Unit)) p = .ret (r, q))
    (h' : (pure response : Lookup rt (Response Unit)) p' = .ret (r', q')) : Alike p p' r r' q q' := by
  cases h
  cases h'
  exact ⟨rfl, .inl ⟨rfl, rfl⟩⟩

theorem DNSMiddleware.alike {status : Bool × Option String} {r r' : Except Raised (Response Unit)}
    (h : conclude status p = .ret (r, q)) (h' : conclude status p' = .ret (r', q')) : Alike p p' r r' q q' := by
  obtain ⟨available, ip⟩ := status
  cases available with
  | false => exact pure_alike h h'
  | true =>
    cases ip with
    | none => exact pure_alike h h'
    | some ip => exact addMetadata_alike rfl h h'

theorem CountryMiddleware.alike {code : Option String} {r r' : Except Raised (Response Unit)}
    (h : conclude code p = .ret (r, q)) (h' : conclude code p' = .ret (r', q')) : Alike p p' r r' q q' :=
  addMetadata_alike rfl h h'

theorem RobotsExclusionMiddleware.alike {texts : Texts} {identifier : String} {record : RobotsRecord}
    {r r' : Except Raised (Response Unit)} (hurl : p'.url = p.url)
    (h : conclude texts identifier record false p = .ret (r, q))
    (h' : conclude texts identifier record true p' = .ret (r', q')) : Alike p p' r r' q q' := by
  change (Proc.value (validate texts identifier record p.url.address) >>= _ : Lookup rt (Response Unit)) p = _ at h
  change (Proc.value (validate texts identifier record p'.url.address) >>= _ : Lookup rt (Response Unit)) p' = _ at h'
  rw [hurl] at h'
  cases hvalid : validate texts identifier record p.url.address with
  | error e =>
    rw [hvalid] at h h'
    cases h
    cases h'
    exact ⟨rfl, .inl ⟨rfl, rfl⟩⟩
  | ok decision =>
    rw [hvalid] at h h'
    cases decision with
    | error error => exact pure_alike h h'
    | ok decision =>
      obtain ⟨available, canFetch, delay⟩ := decision
      have hflag : withoutCacheHit (metadata available canFetch delay true) =
          withoutCacheHit (metadata available canFetch delay false) := rfl
      exact addMetadata_alike hflag h h'

/-- The middlewares with a cache. -/
inductive CachedMiddleware where
  | dns | country | robots

namespace CachedMiddleware

/-- With the token of the settings and the identifier of the crawler. -/
def execute (texts : Texts) (token identifier : String) : CachedMiddleware → Lookup rt (Response Unit)
  | .dns => DNSMiddleware.execute
  | .country => CountryMiddleware.execute texts token
  | .robots => RobotsExclusionMiddleware.execute texts identifier

/-- Where the entry for a payload is. -/
def entryKey (p : Payload rt) : CachedMiddleware → String
  | .dns => RedisCache.statusKey p.url.domain p.url.val.port
  | .country => RedisCache.countryKey p.url.domain p.url.val.port
  | .robots => RedisCache.robotsKey p.url.domain p.url.val.port

end CachedMiddleware

/-- A run that saved its entry, from `s` to `t`, and one of the same URL that
finds the entry, from `s'` to `t'`. Both payloads have an IP if the first has. -/
structure Repeated (texts : Texts) (token identifier : String) (m : CachedMiddleware) (p p' : Payload rt)
    (r r' : Except Raised (Response Unit)) (q q' : Payload rt) (s t s' t' : Redis) : Prop where
  miss : Coro.Ends Redis.rules (m.execute texts token identifier p) s (r, q) t
  unsaved : s.saved = false
  saved : t.saved = true
  url : p'.url = p.url
  located : CountryMiddleware.Located p → CountryMiddleware.Located p'
  entry : s'.hashes (m.entryKey p) = t.hashes (m.entryKey p)
  hit : Coro.Ends Redis.rules (m.execute texts token identifier p') s' (r', q') t'
  fresh : s'.looked = false
  looked : t'.looked = true

/-- A lookup that finds the entry of another decides as that one did. -/
theorem cached_alike {texts : Texts} {token identifier : String} {m : CachedMiddleware} {p p' : Payload rt}
    {r r' : Except Raised (Response Unit)} {q q' : Payload rt} {s t s' t' : Redis}
    (h : Repeated texts token identifier m p p' r r' q q' s t s' t') : Alike p p' r r' q q' := by
  obtain ⟨hmiss, hunsaved, hsaved, hurl, hlocated, hentry, hhit, hfresh, hlooked⟩ := h
  cases m with
  | dns =>
    obtain ⟨status, hstatus, hret⟩ := hmiss.keeps (DNSMiddleware.keeps_execute_missed hunsaved) hsaved
    have hfound : s'.hashes (RedisCache.statusKey p'.url.domain p'.url.val.port) = DNSMiddleware.encode status := by
      rw [hurl]
      exact hentry.trans hstatus
    exact DNSMiddleware.alike hret (hhit.keeps (DNSMiddleware.keeps_execute_found hfresh hfound) hlooked)
  | country =>
    obtain ⟨hmissed, hasked⟩ := hmiss.keeps (CountryMiddleware.keeps_execute_missed hunsaved)
    obtain ⟨code, hcode, hret⟩ := hmissed hsaved
    obtain ⟨name, hdomain, hother, hip⟩ := hasked hsaved
    have hfound : s'.hashes (RedisCache.countryKey p'.url.domain p'.url.val.port) = CountryMiddleware.encode code := by
      rw [hurl]
      exact hentry.trans hcode
    have hasked' : CountryMiddleware.Asked p' name := ⟨hurl ▸ hdomain, hother, hlocated hip⟩
    exact CountryMiddleware.alike hret (hhit.keeps (CountryMiddleware.keeps_execute_found hfresh hasked' hfound) hlooked)
  | robots =>
    obtain ⟨record, hrecord, hret⟩ := hmiss.keeps (RobotsExclusionMiddleware.keeps_execute_missed hunsaved) hsaved
    have hfound : s'.hashes (RedisCache.robotsKey p'.url.domain p'.url.val.port) = RedisCache.encodeRobotsTxt record := by
      rw [hurl]
      exact hentry.trans hrecord
    exact RobotsExclusionMiddleware.alike hurl hret
      (hhit.keeps (RobotsExclusionMiddleware.keeps_execute_found hfresh hfound) hlooked)

/-- A payload the DNS middleware found no fault with has an IP. -/
theorem DNSMiddleware.keeps_execute_located : Proc.Keeps Redis.rules
    (fun r q _ => ∀ data, r = .ok ⟨data, none⟩ → CountryMiddleware.Located q) execute p s := by
  have hconclude (status : Bool × Option String) (t : Redis) : Proc.Keeps Redis.rules
      (fun r q _ => ∀ data, r = .ok ⟨data, none⟩ → CountryMiddleware.Located q) (conclude status) p t := by
    unfold conclude
    split
    · rename_i ip
      exact fun _ _ => ⟨.str ip, by simp [CountryMiddleware.ip, metadata]⟩
    · exact nofun
  rw [execute, Proc.keeps_bind, Proc.keeps_read, Proc.after_ok, Proc.keeps_bind, Proc.keeps_attempt]
  apply keeps_hgetall
  · rw [Proc.keeps_pure, Proc.after_ok]
    cases RedisCache.decodeStatus (s.hashes (RedisCache.statusKey p.url.domain p.url.val.port)) with
    | some status => exact hconclude status _
    | none =>
      refine Proc.keeps_step trivial (fun status t _ => ?_)
      rw [Proc.keeps_bind, Proc.keeps_attempt]
      apply keeps_save
      · exact hconclude status _
      · exact fun e t _ => nofun
  · exact fun e => nofun

end

/-! The status of a domain, found out and cached. -/

/-- Every command succeeds, and the domain can be reached. -/
def Redis.serve : (query : Query asciiRuntime) → Redis → query.Reply × Redis
  | .hgetall key, s => (.ok (s.hashes key), { s with looked := true })
  | .hset key mapping, s => (.ok (), s.hset key mapping)
  | .expire _ _, s => (.ok (), { s with saved := true })
  | .checkDomainAvailability _ _, s => ((true, some "192.0.2.1"), s)
  | .http _, s => (.error ⟨"builtins.ConnectionError"⟩, s)

theorem Redis.serve_follows (query : Query asciiRuntime) (s : Redis) :
    rules.follows s query (serve query s).1 (serve query s).2 := by
  cases query with
  | checkDomainAvailability domain port => exact ⟨.inr ⟨"192.0.2.1", by decide, rfl⟩, rfl⟩
  | hgetall key => exact ⟨rfl, rfl⟩
  | _ => rfl

def statusRun (s : Redis) : (Except Raised (Response Unit) × Payload asciiRuntime) × Redis :=
  Coro.run Redis.serve (DNSMiddleware.execute sitePage) s

def emptyRedis : Redis := ⟨fun _ => .empty, false, false⟩

/-- The entry is saved, and another run begins. -/
def cachedStatus : Redis := { (statusRun emptyRedis).2 with looked := false }

def idleTexts : Texts := ⟨fun _ _ => "", id, fun _ => "", fun _ _ _ => .ok true, fun _ _ => .ok .none⟩

theorem status_repeated : Repeated idleTexts "" "linksurf" .dns sitePage sitePage (statusRun emptyRedis).1.1
    (statusRun cachedStatus).1.1 (statusRun emptyRedis).1.2 (statusRun cachedStatus).1.2 emptyRedis
    (statusRun emptyRedis).2 cachedStatus (statusRun cachedStatus).2 where
  miss := Coro.ends_run Redis.serve_follows _ _
  unsaved := rfl
  saved := by decide +kernel
  url := rfl
  located := id
  entry := rfl
  hit := Coro.ends_run Redis.serve_follows _ _
  fresh := rfl
  looked := by decide +kernel

theorem cached_alike_dns : Alike sitePage sitePage (statusRun emptyRedis).1.1 (statusRun cachedStatus).1.1
    (statusRun emptyRedis).1.2 (statusRun cachedStatus).1.2 := cached_alike status_repeated

end Linksurf.Pipeline
