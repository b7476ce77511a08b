import Linksurf.Payloads

/-!
# The way of a payload through the broker

`to_dict`, the conversions of the `json` module and `from_dict`. Every record is
read back as it was written; of the URL only its address is written, so it is
read back where the address is normalized for good.
-/
namespace Linksurf.Pipeline

open Dicts (Dict)
open IsoFormat (DateTime)
open Json

variable {rt : Runtime}

/-! ## Records read back -/

theorem kwargs_object {parameters : List String} {es : List (String × Plain)} (h : ∀ e ∈ es, e.1 ∈ parameters) :
    kwargs parameters (object es) = some es := by
  simp only [kwargs, asObject_object, Option.bind_eq_bind, Option.bind_some]
  apply if_pos
  simpa using h

@[simp] theorem Redirect.ofDict_asdict (r : Redirect) : Redirect.ofDict r.asdict = some r := by
  rw [Redirect.ofDict, Redirect.asdict, kwargs_object (by simp)]
  simp [getItem, List.lookup]

@[simp] theorem HTTPRequestSummary.ofDict_asdict (r : HTTPRequestSummary) :
    HTTPRequestSummary.ofDict r.asdict = some r := by
  rw [HTTPRequestSummary.ofDict, HTTPRequestSummary.asdict, kwargs_object (by simp)]
  simp [getItem, getDefault, List.lookup]

theorem Headers.ofDict_items (h : Headers rt) :
    Headers.ofDict rt (object (h.items.entries.map headerEntry)) = some h := by
  have hstrings (items : List (String × String)) :
      (items.map headerEntry).mapM (fun e => (asString e.2).map (fun v => (e.1, v))) = some items := by
    induction items with
    | nil => rfl
    | cons e items ih => rw [List.map_cons, List.mapM_cons, ih]; rfl
  simp [Headers.ofDict, hstrings, Headers.ofItems_entries]

@[simp] theorem HTTPResponseSummary.ofDict_asdict (r : HTTPResponseSummary rt) :
    HTTPResponseSummary.ofDict rt r.asdict = some r := by
  rw [HTTPResponseSummary.ofDict, HTTPResponseSummary.asdict, kwargs_object (by simp)]
  simp [getItem, getDefault, List.lookup, Headers.ofDict_items, asList_map Redirect.ofDict_asdict]

/-- Content that went through JSON: what was extracted has no instances. -/
def Content.Loaded (c : Content) : Prop := ∃ v : Plain, c.extracted = lift v

theorem Content.ofDict_asdict {c : Content} (h : c.Loaded) : Content.ofDict c.asdict = some c := by
  obtain ⟨key, type, extracted⟩ := c
  obtain ⟨v, rfl⟩ := h
  rw [Content.ofDict, Content.asdict, kwargs_object (by simp)]
  simp [getItem, getDefault, List.lookup, asdict_lift]

theorem ifTruthy_optional {α : Type} {read : Plain → Option α} {write : α → Plain} {a : Option α}
    (h : ∀ x ∈ a, read (write x) = some x) (ht : ∀ x, truthy (write x) = true) :
    ifTruthy read (optional write a) = some a := by
  cases a with
  | none => rfl
  | some x =>
    change ifTruthy read (write x) = some (some x)
    rw [ifTruthy, if_pos (ht x), h x rfl, Option.map_some]

@[simp] theorem asMetadata_object (d : Dict String Plain) : asMetadata (object d.entries) = some d := by
  simp [asMetadata, d.nodup]

theorem asOptional_asMetadata (d : Dict String Plain) :
    asOptional asMetadata (object d.entries) = some (some d) := by
  change (asMetadata (object d.entries)).map some = some (some d)
  rw [asMetadata_object, Option.map_some]

theorem ifTruthy_timestamp (d : DateTime) : ifTruthy asDateTime (timestamp d) = some (some d) := by
  have hread : asDateTime (timestamp d) = some d := by
    simp [asDateTime, timestamp, String.toList_ofList, IsoFormat.fromisoformat_isoformat]
  have hne : String.ofList (IsoFormat.isoformat d) ≠ "" := by
    intro he
    have hd := IsoFormat.fromisoformat_isoformat d
    rw [← String.toList_ofList (l := IsoFormat.isoformat d), he] at hd
    cases hd
  rw [ifTruthy, if_pos (by simpa [timestamp, truthy] using hne), hread, Option.map_some]

theorem Defaults.correlationId_some (defaults : Defaults) (id : { id : String // id ≠ "" }) :
    defaults.correlationId (some id) = id := by
  rw [Defaults.correlationId, dif_pos id.2]

/-- A payload is read back as it was written up to its URL, which is built
from its address again. -/
theorem Payload.fromDict_toDict (defaults : Defaults) {p : Payload rt} (h : ∀ c ∈ p.content, c.Loaded) :
    Payload.fromDict rt defaults p.toDict =
      (BuiltURL.ofAddress rt p.url.val.address).map (fun url => { p with url, published := false }) := by
  have hurl : getItem p.members "url" (fun v => (asString v).bind (fun s => BuiltURL.ofAddress rt s.toList)) =
      BuiltURL.ofAddress rt p.url.val.address := by
    change BuiltURL.ofAddress rt (String.ofList p.url.val.address).toList = _
    rw [String.toList_ofList]
  have hpriority : getDefault p.members "priority" asInt 0 = some p.priority := rfl
  have hretrying : getDefault p.members "retrying" asBool false = some p.retrying := rfl
  have hretries : getDefault p.members "retries" asInt 0 = some p.retries := rfl
  have hdeduplicated : getDefault p.members "deduplicated" asBool false = some p.deduplicated := rfl
  have hcontent : getDefault p.members "content" (ifTruthy Content.ofDict) none = some p.content :=
    ifTruthy_optional (fun c hc => Content.ofDict_asdict (h c hc)) (fun _ => rfl)
  have hredirects : getDefault p.members "redirects" (asList Redirect.ofDict) [] = some p.redirects :=
    asList_map Redirect.ofDict_asdict p.redirects
  have hrequest : getDefault p.members "request" (ifTruthy HTTPRequestSummary.ofDict) none = some p.request :=
    ifTruthy_optional (fun r _ => r.ofDict_asdict) (fun _ => rfl)
  have hresponse : getDefault p.members "response" (ifTruthy (HTTPResponseSummary.ofDict rt)) none = some p.response :=
    ifTruthy_optional (fun r _ => r.ofDict_asdict) (fun _ => rfl)
  have hmetadata : getDefault p.members "metadata" (asOptional asMetadata) none = some (some p.metadata) :=
    asOptional_asMetadata p.metadata
  have hcorrelation : getDefault p.members "correlation_id" (asOptional asString) none =
      some (some p.correlationId.val) := rfl
  have hcrawl : getDefault p.members "crawl_id" (asOptional asString) none = some p.crawlId :=
    asOptional_str p.crawlId
  have hdiscovered : getDefault p.members "discovered_at" (ifTruthy asDateTime) none = some (some p.discoveredAt) := by
    have hmember : p.members.lookup "discovered_at" = some (timestamp p.discoveredAt) := rfl
    rw [getDefault, hmember, Option.elim_some, ifTruthy_timestamp]
  rw [Payload.fromDict, Payload.toDict, asObject_object, Option.bind_eq_bind, Option.bind_some, hurl]
  cases BuiltURL.ofAddress rt p.url.val.address with
  | none => rfl
  | some url =>
    simp only [Option.bind_eq_bind, Option.bind_some, Option.pure_def, hpriority, hretrying, hretries, hdeduplicated, hcontent,
      hredirects, hrequest, hresponse, hmetadata, hcorrelation, hcrawl, hdiscovered, Option.getD_some,
      Defaults.correlationId_some, Option.map_some]

/-! ## What the other side has -/

theorem compatible_optional {α : Type} {write : α → Plain} (h : ∀ a, Compatible (write a)) (a : Option α) :
    Compatible (optional write a) := by
  cases a with
  | none => trivial
  | some a => exact h a

theorem compatible_map {α : Type} {write : α → Plain} (h : ∀ a, Compatible (write a)) (xs : List α) :
    Compatible (.list (xs.map write)) := by
  apply compatible_list
  intro x hx
  obtain ⟨a, -, rfl⟩ := List.mem_map.mp hx
  exact h a

theorem compatible_str (s : Option String) : Compatible (optional .str s) := by
  cases s <;> trivial

theorem Redirect.compatible (r : Redirect) : Compatible r.asdict := by
  apply compatible_object
  · simp
  · simp [Compatible]

theorem HTTPRequestSummary.compatible (r : HTTPRequestSummary) : Compatible r.asdict := by
  apply compatible_object
  · simp
  · simp [Compatible, compatible_str]

theorem Headers.compatible (h : Headers rt) : Compatible (object (h.items.entries.map headerEntry)) := by
  apply compatible_object
  · have hkeys : (h.items.entries.map headerEntry).map Prod.fst = h.items.entries.map Prod.fst := by
      rw [List.map_map]
      rfl
    rw [hkeys]
    exact h.items.nodup
  · intro e he
    obtain ⟨e, -, rfl⟩ := List.mem_map.mp he
    trivial

theorem HTTPResponseSummary.compatible (r : HTTPResponseSummary rt) : Compatible r.asdict := by
  apply compatible_object
  · simp
  · have hredirects : Compatible (.list (r.redirects.map Redirect.asdict)) := compatible_map Redirect.compatible _
    simp only [Compatible] at hredirects
    simp [Compatible, compatible_str, Headers.compatible, hredirects]

/-- Content arrives with what was extracted as plain values. -/
theorem Content.throughJson_asdict (c : Content) : throughJson c.asdict =
    (throughJson (Json.asdict Link.fields c.extracted)).map (fun v => { c with extracted := lift v }.asdict) := by
  have hbefore : ∀ e ∈ [("key", Value.str c.key), ("type", .str c.type)], Compatible e.2 := by simp [Compatible]
  have hhole (v : Plain) := @throughJson_object_hole _ [] "extracted" v (by simp) hbefore (by simp)
  have hloaded (v : Plain) : { c with extracted := lift v }.asdict =
      object ([("key", .str c.key), ("type", .str c.type)] ++ ("extracted", v) :: []) := by
    simp only [Content.asdict, asdict_lift]
    rfl
  simp only [hloaded]
  exact hhole _

/-- The members before the content, between it and the metadata, and after. -/
def Payload.membersBefore (p : Payload rt) : List (String × Plain) := p.members.take 5
def Payload.membersBetween (p : Payload rt) : List (String × Plain) := (p.members.drop 6).take 3
def Payload.membersAfter (p : Payload rt) : List (String × Plain) := p.members.drop 10

theorem Payload.members_eq (p : Payload rt) (content : Option Content) (metadata : Dict String Plain) :
    { p with content, metadata }.members = p.membersBefore ++ ("content", optional Content.asdict content) ::
      (p.membersBetween ++ ("metadata", object metadata.entries) :: p.membersAfter) := rfl

theorem Payload.membersBefore_compatible (p : Payload rt) : ∀ e ∈ p.membersBefore, Compatible e.2 := by
  simp [Payload.membersBefore, Payload.members, Compatible]

theorem Payload.membersBetween_compatible (p : Payload rt) : ∀ e ∈ p.membersBetween, Compatible e.2 := by
  have hredirects : Compatible (.list (p.redirects.map Redirect.asdict)) := compatible_map Redirect.compatible _
  have hrequest : Compatible (optional HTTPRequestSummary.asdict p.request) :=
    compatible_optional HTTPRequestSummary.compatible _
  have hresponse : Compatible (optional HTTPResponseSummary.asdict p.response) :=
    compatible_optional HTTPResponseSummary.compatible _
  intro e he
  simp only [Payload.membersBetween, Payload.members, List.drop_succ_cons, List.drop_zero, List.take_succ_cons,
    List.take_zero, List.mem_cons, List.not_mem_nil, or_false] at he
  obtain rfl | rfl | rfl := he
  · exact hredirects
  · exact hrequest
  · exact hresponse

theorem Payload.membersAfter_compatible (p : Payload rt) : ∀ e ∈ p.membersAfter, Compatible e.2 := by
  have htimestamp : Compatible (timestamp p.discoveredAt) := trivial
  have hid : Compatible (.str p.correlationId) := trivial
  intro e he
  simp only [Payload.membersAfter, Payload.members, List.drop_succ_cons, List.drop_zero, List.mem_cons,
    List.not_mem_nil, or_false] at he
  obtain rfl | rfl | rfl := he
  · exact hid
  · exact compatible_str p.crawlId
  · exact htimestamp

theorem Content.throughJson_optional {content : Option Content} {w : Plain}
    (h : throughJson (optional Content.asdict content) = some w) :
    ∃ loaded : Option Content, (∀ c ∈ loaded, c.Loaded) ∧ w = optional Content.asdict loaded := by
  cases content with
  | none =>
    cases h
    exact ⟨none, by simp, rfl⟩
  | some c =>
    change throughJson c.asdict = some w at h
    rw [c.throughJson_asdict] at h
    obtain ⟨v, -, rfl⟩ := Option.map_eq_some_iff.mp h
    refine ⟨some { c with extracted := lift v }, ?_, rfl⟩
    rintro c' hc'
    cases hc'
    exact ⟨v, rfl⟩

/-- Metadata arrives under the same names. -/
theorem throughJson_metadata {metadata : Dict String Plain} {w : Plain}
    (h : throughJson (object metadata.entries) = some w) :
    ∃ loaded : Dict String Plain, w = object loaded.entries := by
  rw [throughJson_object metadata.nodup] at h
  obtain ⟨entries, hentries, rfl⟩ := Option.map_eq_some_iff.mp h
  exact ⟨⟨entries, by rw [throughJson_names hentries]; exact metadata.nodup⟩, rfl⟩

theorem object_injective {es es' : List (String × Plain)} (h : object es = object es') : es = es' := by
  have hread := congrArg asObject h
  rw [asObject_object, asObject_object] at hread
  exact Option.some.inj hread

/-- A published payload arrives as the dictionary of the payload with its
content and its metadata loaded. -/
theorem Payload.throughJson_toDict {p : Payload rt} {x : Plain} (hx : throughJson p.toDict = some x) :
    ∃ (content : Option Content) (metadata : Dict String Plain), (∀ c ∈ content, c.Loaded) ∧
      (Compatible (object p.metadata.entries) → metadata = p.metadata) ∧ x = { p with content, metadata }.toDict := by
  have hnodup : (p.members.map Prod.fst).Nodup := by simp [Payload.members]
  have hmembers : p.members = _ := p.members_eq p.content p.metadata
  rw [Payload.toDict, hmembers] at hx
  rw [hmembers] at hnodup
  obtain ⟨w, w', hw, hw', rfl⟩ := throughJson_object_holes hnodup p.membersBefore_compatible
    p.membersBetween_compatible p.membersAfter_compatible hx
  obtain ⟨content, hloaded, rfl⟩ := Content.throughJson_optional hw
  obtain ⟨metadata, rfl⟩ := throughJson_metadata hw'
  refine ⟨content, metadata, hloaded, ?_, ?_⟩
  · intro h
    rw [throughJson_of_compatible h] at hw'
    exact (Dict.ext (object_injective (Option.some.inj hw'))).symm
  · rw [Payload.toDict, p.members_eq]

theorem BuiltURL.ofAddress_eq_some {url : BuiltURL rt} {s : List Char} :
    BuiltURL.ofAddress rt s = some url ↔ URL.ofAddress rt s = some url.val := by
  constructor
  · intro h
    obtain ⟨u, -, hu, rfl⟩ := Option.pmap_eq_some_iff.mp h
    exact hu
  · intro h
    exact Option.pmap_eq_some_iff.mpr ⟨url.val, url.property, h, rfl⟩

def exampleTime : DateTime := ⟨2024, 5, 17, 8, 30, 0, 250, some 0, by decide, by decide, by simp [IsoFormat.DAY]⟩

def exampleDefaults : Defaults := ⟨⟨"0a", by decide⟩, exampleTime⟩

def siteURL : BuiltURL asciiRuntime :=
  ⟨⟨http, some "site".toList, "site".toList, "/".toList, [], [], 80⟩, "http://site/".toList, by decide +kernel⟩

theorem siteURL_address : siteURL.address = "http://site/" := by decide +kernel
def sitePage : Payload asciiRuntime where
  url := siteURL
  priority := 3
  content := some ⟨"site/0b/0c", MimeType.html.value, .dict
    [(.str "links", .list [.record ⟨"http://site/", "http://site/a", "a", .internal, some "A", none⟩])]⟩
  redirects := [⟨"http://site/b", "http://site/", 301, 0⟩]
  request := some { url := "http://site/" }
  response := some ⟨200, .ofItems [("Content-Type", "text/html")], some "utf-8", 12, 5, []⟩
  metadata := Dict.empty.set "country" (.str "BR")
  correlationId := ⟨"0d", by decide⟩
  crawlId := some "0c"
  discoveredAt := exampleTime
  published := true

theorem site_not_endsInDefaultPort : ¬ siteURL.val.EndsInDefaultPort := by
  rw [URL.not_endsInDefaultPort_iff]
  decide

end Linksurf.Pipeline
