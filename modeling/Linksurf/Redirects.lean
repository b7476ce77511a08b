import Linksurf.Interleaving

/-!
# Chains of redirects

The Downloader publishes the target of a redirect to the Frontier, which
registers it as a document. The back queue makes a payload of the document, and
that has no redirects: the next download starts counting again.
-/
namespace Linksurf.Pipeline

open Coroutine
open Json (Plain throughJson)

section

variable {rt : Runtime}

/-- Where a redirect leads from a URL, `none` where it leads nowhere. -/
def HTTPResponse.target? (response : HTTPResponse rt) (url : BuiltURL rt) : Option (BuiltURL rt) :=
  let location := (response.headers.get? "location").getD ""
  if response.isRedirect = true ∧ location ≠ "" then
    (rt.urljoin url.val.address location.toList).bind (BuiltURL.ofAddress rt)
  else none

/-- What is noted of a run: the response whose fetch was reported, what is
published and what is registered. -/
structure Seen (rt : Runtime) where
  response : Option (HTTPResponse rt) := none
  published : List (Topic × Payload rt) := []
  registered : Option URLModel := none

namespace Seen

def note (s : Seen rt) : (call : Call rt) → call.Reply → Seen rt
  | .report _ response _, .ok () => { s with response }
  | .brokerPublish topic p _, _ => { s with published := s.published ++ [(topic, p)] }
  | .registerUrl url, .ok () => { s with registered := some url }
  | _, _ => s

def notes : Coro.Rules (Call rt) Call.Reply (Seen rt) := Coro.observing note

end Seen

def depthExceeded : Error := { message := "Redirect depth limit exceeded.", retriable := false }

/-- The record of a redirect from a URL, after those before. -/
def redirectRecord (url : BuiltURL rt) (before : List Redirect) (response : HTTPResponse rt) (target : BuiltURL rt) :
    Redirect where
  source := url.address
  target := target.address
  statusCode := response.statusCode
  depth := before.length

/-- A redirect is recorded, and followed below the limit only. -/
structure Redirected (url : BuiltURL rt) (before : List Redirect) (response : HTTPResponse rt) (target : BuiltURL rt)
    (outcome : Except Raised (Option Error)) (q : Payload rt) (seen : Seen rt) : Prop where
  recorded : q.redirects = before ++ [redirectRecord url before response target]
  exceeded : MAX_REDIRECT_DEPTH ≤ before.length → outcome = .ok (some depthExceeded) ∧ seen.published = []
  followed : (before.length : Int) < MAX_REDIRECT_DEPTH →
    ∃ next : Payload rt, next.url = target ∧ next.redirects = q.redirects ∧ seen.published = [(.process, next)]

/-- What a download makes of a redirect. -/
def Redirects (url : BuiltURL rt) (before : List Redirect) (outcome : Except Raised (Option Error)) (q : Payload rt)
    (seen : Seen rt) : Prop :=
  ∀ response target, seen.response = some response → response.target? url = some target →
    Redirected url before response target outcome q seen

variable {p : Payload rt} {s : Seen rt} {response : HTTPResponse rt} {target : BuiltURL rt}

theorem notes_executes (call : Call rt) (h : call.Executes) : Seen.notes.Ignores s call := by
  refine ⟨trivial, ?_⟩
  rintro r u rfl
  cases call <;> first | exact h.elim | rfl

theorem HTTPResponse.target?_eq_some {url : BuiltURL rt} : response.target? url = some target ↔
    response.isRedirect = true ∧ (response.headers.get? "location").getD "" ≠ "" ∧
      ∃ joined, rt.urljoin url.val.address ((response.headers.get? "location").getD "").toList = some joined ∧
        BuiltURL.ofAddress rt joined = some target := by
  unfold HTTPResponse.target?
  dsimp only
  split
  · rename_i h
    simp [h, Option.bind_eq_some_iff]
  · rename_i h
    constructor
    · exact fun hnone => absurd hnone (by simp)
    · exact fun htarget => absurd ⟨htarget.1, htarget.2.1⟩ h

namespace Downloader

/-! ## One download -/

theorem keeps_publish {topic : Topic} {q : Payload rt} {Q : Except Raised Unit → Payload rt → Seen rt → Prop}
    (hQ : ∀ r, Q r p { s with published := s.published ++ [(topic, q)] }) :
    Proc.Keeps Seen.notes Q (publish topic [q]) p s := by
  refine Proc.keeps_note (fun published => ?_)
  cases published <;> exact hQ _

/-- A redirect below the limit is followed. -/
theorem keeps_handleRedirect_target (htarget : response.target? p.url = some target) (hs : s.published = []) :
    Proc.Keeps Seen.notes (Redirected p.url p.redirects response target) (handleRedirect response) p s := by
  obtain ⟨-, hlocation, joined, hjoin, hbuilt⟩ := HTTPResponse.target?_eq_some.mp htarget
  unfold handleRedirect
  dsimp only
  rw [if_neg hlocation]
  simp only [Proc.keeps_bind, Proc.keeps_read, Proc.keeps_value, Proc.after_ok, hjoin, Option.elim_some, buildURL,
    hbuilt, Proc.keeps_pure, Proc.keeps_assign]
  split
  · rename_i hlimit
    exact ⟨rfl, fun _ => ⟨rfl, hs⟩, fun hbelow => absurd hlimit (not_le.mpr hbelow)⟩
  · rename_i hlimit
    simp only [Proc.keeps_bind, Proc.keeps_read, Proc.after_ok]
    refine Proc.keeps_note (fun id => ?_)
    refine Proc.keeps_note (fun time => ?_)
    rw [Proc.keeps_pure, Proc.after_ok, Proc.keeps_bind]
    apply keeps_publish
    let next : Payload rt :=
      { url := target
        redirects := p.redirects ++ [redirectRecord p.url p.redirects response target]
        correlationId := id
        discoveredAt := time }
    have hpublished : s.published ++ [(Topic.process, next)] = [(.process, next)] := by rw [hs, List.nil_append]
    intro r
    cases r with
    | error e => exact ⟨rfl, fun h => absurd h hlimit, fun _ => ⟨next, rfl, rfl, hpublished⟩⟩
    | ok _ => exact ⟨rfl, fun h => absurd h hlimit, fun _ => ⟨next, rfl, rfl, hpublished⟩⟩

/-! The response that was reported stays the one that is noted. -/

theorem keeps_handleRedirect_response :
    Proc.Keeps Seen.notes (fun _ _ t => t.response = s.response) (handleRedirect response) p s := by
  unfold handleRedirect
  dsimp only
  split
  · rfl
  simp only [Proc.keeps_bind, Proc.keeps_read, Proc.keeps_value, Proc.after_ok]
  cases (rt.urljoin _ _).elim (Except.error valueError) Except.ok with
  | error e => rfl
  | ok joined =>
    rw [Proc.after_ok, Proc.keeps_bind, buildURL]
    cases BuiltURL.ofAddress rt joined with
    | none => rfl
    | some target =>
      simp only [Proc.keeps_pure, Proc.after_ok, Proc.keeps_bind, Proc.keeps_assign]
      split
      · rfl
      simp only [Proc.keeps_bind, Proc.keeps_read, Proc.after_ok]
      refine Proc.keeps_note (fun id => ?_)
      refine Proc.keeps_note (fun time => ?_)
      rw [Proc.keeps_pure, Proc.after_ok, Proc.keeps_bind]
      apply keeps_publish
      intro r
      cases r <;> rfl

theorem keeps_storePage_response :
    Proc.Keeps Seen.notes (fun _ _ t => t.response = s.response) (storePage response) p s := by
  rw [storePage, Proc.keeps_bind, Proc.keeps_read, Proc.after_ok]
  refine Proc.keeps_note (fun uploaded => ?_)
  cases uploaded with
  | error e => rfl
  | ok _ =>
    simp only [Proc.keeps_bind, Proc.keeps_assign, Proc.keeps_read, Proc.after_ok]
    apply keeps_publish
    intro r
    cases r <;> rfl

theorem keeps_handleResponse_response :
    Proc.Keeps Seen.notes (fun _ _ t => t.response = s.response) (handleResponse response) p s := by
  simp only [handleResponse, Proc.keeps_bind, Proc.keeps_assign, Proc.after_ok]
  split
  · exact keeps_handleRedirect_response
  split
  · rw [Proc.keeps_bind]
    apply keeps_filter notes_executes
    intro r m
    cases r with
    | error e => rfl
    | ok proceed =>
      cases proceed with
      | error e => rfl
      | ok proceed =>
        cases proceed with
        | false => rfl
        | true => exact keeps_storePage_response
  · rfl

theorem keeps_handleResponse_target (hs : s.published = []) (htarget : response.target? p.url = some target) :
    Proc.Keeps Seen.notes (Redirected p.url p.redirects response target) (handleResponse response) p s := by
  have hredirect := (HTTPResponse.target?_eq_some.mp htarget).1
  simp only [handleResponse, Proc.keeps_bind, Proc.keeps_assign, Proc.after_ok, hredirect, if_true]
  exact keeps_handleRedirect_target (p := { p with response := some response.toSummary }) htarget hs

/-- The beginning of a crawl leaves what a redirect is about. -/
theorem keeps_beginCrawl_redirects {Q : Except Raised (Option Error) → Payload rt → Seen rt → Prop}
    (hQ : ∀ r q, q.url = p.url → q.redirects = p.redirects → Q r q s) :
    Proc.Keeps Seen.notes Q beginCrawl p s := by
  rw [beginCrawl, Proc.keeps_bind, Proc.keeps_read, Proc.after_ok]
  split
  · exact hQ _ _ rfl rfl
  refine Proc.keeps_note (fun id => ?_)
  refine Proc.keeps_note (fun startedAt => ?_)
  refine Proc.keeps_note (fun finishedAt => ?_)
  refine Proc.keeps_note (fun started => ?_)
  cases started with
  | error e =>
    change Proc.Keeps _ _ (await (.complete p) >>= fun completed => Proc.value completed >>= _) _ _
    refine Proc.keeps_note (fun completed => ?_)
    rw [Proc.keeps_bind, Proc.keeps_value]
    cases completed <;> exact hQ _ _ rfl rfl
  | ok _ =>
    rw [Proc.keeps_bind, Proc.keeps_assign, Proc.after_ok]
    refine Proc.keeps_note (fun _ => ?_)
    exact hQ _ _ rfl rfl

theorem keeps_fetchPage_redirects : Proc.Keeps Seen.notes (Redirects p.url p.redirects) fetchPage p {} := by
  have hnone {s : Seen rt} (hs : s.response = none) {r : Except Raised (Option Error)} {q : Payload rt} :
      Redirects p.url p.redirects r q s := by
    intro response target hresponse
    rw [hs] at hresponse
    cases hresponse
  rw [fetchPage, Proc.keeps_bind, Proc.keeps_read, Proc.after_ok]
  refine Proc.keeps_note (fun fetched => ?_)
  rw [Proc.keeps_bind, Proc.keeps_assign, Proc.after_ok, Proc.keeps_bind, Proc.keeps_read, Proc.after_ok]
  refine Proc.keeps_note (fun reported => ?_)
  rw [Proc.keeps_bind, Proc.keeps_value]
  cases reported with
  | error e => exact hnone rfl
  | ok _ =>
    rw [Proc.after_ok]
    obtain ⟨request, outcome⟩ := fetched
    cases outcome with
    | error e => exact hnone rfl
    | ok response =>
      cases response with
      | none => exact hnone rfl
      | some response =>
        cases htarget : response.target? p.url with
        | none =>
          apply Proc.keeps_mono keeps_handleResponse_response
          intro r q t hkept response' target hresponse htarget'
          obtain rfl := Option.some.inj (hkept.symm.trans hresponse)
          rw [htarget] at htarget'
          cases htarget'
        | some target =>
          refine Proc.keeps_mono (Proc.keeps_and keeps_handleResponse_response (keeps_handleResponse_target rfl htarget)) ?_
          rintro r q t ⟨hkept, hredirected⟩ response' target' hresponse htarget'
          obtain rfl := Option.some.inj (hkept.symm.trans hresponse)
          obtain rfl := Option.some.inj (htarget.symm.trans htarget')
          exact hredirected

/-- A download of a URL that redirects. -/
theorem keeps_download_redirects : Proc.Keeps Seen.notes (Redirects p.url p.redirects) download p {} := by
  rw [download, Proc.keeps_bind]
  apply keeps_beginCrawl_redirects
  intro r q hurl hredirects
  cases r with
  | error e => exact fun response target hresponse => absurd hresponse (by simp)
  | ok error =>
    cases error with
    | some error => exact fun response target hresponse => absurd hresponse (by simp)
    | none =>
      rw [← hurl, ← hredirects]
      exact keeps_fetchPage_redirects

end Downloader

/-! ## Chains -/

/-- A download whose response leads on. -/
structure Visit (rt : Runtime) where
  payload : Payload rt
  outcome : Except Raised (Option Error)
  left : Payload rt
  seen : Seen rt
  response : HTTPResponse rt
  target : BuiltURL rt
  run : Coro.Ends Seen.notes (Downloader.download payload) {} (outcome, left) seen
  received : seen.response = some response
  leads : response.target? payload.url = some target

namespace Visit

/-- The back queue made the payload of a document. -/
def Pulled (v : Visit rt) : Prop := ∃ url : URLModel, url.payload rt = some v.payload

/-- The target of a visit is published to the Frontier, registered there and
visited next. -/
def Leads (v v' : Visit rt) : Prop :=
  ∃ message sent defaults taken outcome left, ∃ seen : Seen rt, ∃ url,
    (.process, message) ∈ v.seen.published ∧ throughJson message.toDict = some sent ∧
      Payload.fromDict rt defaults sent = some taken ∧
      Coro.Ends Seen.notes (Frontier.process taken) {} (outcome, left) seen ∧ seen.registered = some url ∧
      url.payload rt = some v'.payload

/-- Visits that lead to each other, from a document on. -/
structure Chain (visits : List (Visit rt)) : Prop where
  first : ∀ v ∈ visits.head?, v.Pulled
  next : visits.IsChain Leads

/-- The redirects of a chain are counted, and the limit is kept. -/
def Bounded (visits : List (Visit rt)) : Prop := ∀ (k : Nat) (v : Visit rt), visits[k]? = some v →
  (∃ record, v.left.redirects.getLast? = some record ∧ record.depth = k) ∧
    (MAX_REDIRECT_DEPTH ≤ k → v.outcome = .ok (some depthExceeded) ∧ v.seen.published = [])

variable {v v' : Visit rt} {visits : List (Visit rt)}

theorem Leads.pulled (h : v.Leads v') : v'.Pulled := by
  obtain ⟨message, sent, defaults, taken, outcome, left, seen, url, -, -, -, -, -, hurl⟩ := h
  exact ⟨url, hurl⟩

theorem Chain.pulled (h : Chain visits) : ∀ v ∈ visits, v.Pulled := by
  obtain ⟨hfirst, hnext⟩ := h
  induction visits with
  | nil => exact fun v hv => absurd hv List.not_mem_nil
  | cons v visits ih =>
    intro v' hv'
    cases List.mem_cons.mp hv' with
    | inl he => exact hfirst v' (he ▸ rfl)
    | inr hv' =>
      apply ih ?_ hnext.tail v' hv'
      intro w hw
      cases visits with
      | nil => cases hw
      | cons u visits =>
        obtain rfl : u = w := Option.some.inj hw
        exact (List.isChain_cons_cons.mp hnext).1.pulled

/-- A payload of the back queue has not been redirected. -/
theorem Pulled.redirects (h : v.Pulled) : v.payload.redirects = [] := by
  obtain ⟨url, hurl⟩ := h
  obtain ⟨built, -, hp⟩ := Option.map_eq_some_iff.mp hurl
  rw [← hp]

/-- Every redirect of a chain is counted as the first. -/
theorem Pulled.recorded (h : v.Pulled) :
    v.left.redirects = [redirectRecord v.payload.url [] v.response v.target] := by
  have hrecorded := (v.run.keeps Downloader.keeps_download_redirects v.response v.target v.received v.leads).recorded
  rw [h.redirects, List.nil_append] at hrecorded
  exact hrecorded

/-- A chain of redirects is counted as it should be exactly where it has no
more than one. -/
theorem redirects_bounded_iff (h : Chain visits) : Bounded visits ↔ visits.length ≤ 1 := by
  constructor
  · intro hbounded
    by_contra hlong
    have hsecond : visits[1]? = some visits[1] := List.getElem?_eq_getElem (by omega)
    obtain ⟨⟨record, hrecord, hdepth⟩, -⟩ := hbounded 1 _ hsecond
    rw [(h.pulled _ (List.mem_of_getElem? hsecond)).recorded, List.getLast?_singleton] at hrecord
    obtain rfl := Option.some.inj hrecord
    have hcount : (0 : Int) = 1 := hdepth
    omega
  · intro hshort k v hv
    obtain rfl : k = 0 := by
      have hk := (List.getElem?_eq_some_iff.mp hv).1
      omega
    have hrecorded := (h.pulled _ (List.mem_of_getElem? hv)).recorded
    exact ⟨⟨_, by rw [hrecorded, List.getLast?_singleton], rfl⟩, fun hlimit => absurd hlimit (by decide)⟩

end Visit

end

/-! Six redirects from `http://site/` on, each of them followed. -/

/-- Services answer, and what is noted is noted. -/
def answering (reply : (call : Call asciiRuntime) → call.Reply) (call : Call asciiRuntime) (seen : Seen asciiRuntime) :
    call.Reply × Seen asciiRuntime := (reply call, seen.note call (reply call))

def redirectReply (location : String) : (call : Call asciiRuntime) → call.Reply
  | .fetch request =>
    ⟨request, .ok (some { exampleResponse with statusCode := 301, headers := .ofItems [("Location", location)] })⟩
  | call => exampleReply call

def downloaded (p : Payload asciiRuntime) (location : String) :
    (Except Raised (Option Error) × Payload asciiRuntime) × Seen asciiRuntime :=
  Coro.run (answering (redirectReply location)) (Downloader.download p) {}

def processed (p : Payload asciiRuntime) :
    (Except Raised (Option Error) × Payload asciiRuntime) × Seen asciiRuntime :=
  Coro.run (answering exampleReply) (Frontier.process p) {}

/-- The payload of the next visit, where a redirect is followed. -/
def followed? (p : Payload asciiRuntime) (location : String) : Option (Payload asciiRuntime) := do
  let (_, seen) := downloaded p location
  let response ← seen.response
  let _ ← response.target? p.url
  let (_, message) ← seen.published.find? (fun m => m.1 = .process)
  let sent ← throughJson message.toDict
  let taken ← Payload.fromDict asciiRuntime exampleDefaults sent
  let url ← (processed taken).2.registered
  url.payload asciiRuntime

def siteModel : URLModel := ⟨"http://site/", "", "site", 1, 0, ⟨"0b", by decide⟩, exampleTime⟩

def siteRedirects : List String :=
  ["http://site/a", "http://site/b", "http://site/c", "http://site/d", "http://site/e", "http://site/f"]

namespace Visit

theorem of_followed {p next : Payload asciiRuntime} {location : String} (h : followed? p location = some next) :
    ∃ v : Visit asciiRuntime, v.payload = p ∧ v.seen.published ≠ [] ∧ ∀ v', v'.payload = next → v.Leads v' := by
  unfold followed? at h
  simp only [Option.bind_eq_bind, Option.bind_eq_some_iff] at h
  obtain ⟨response, hresponse, target, htarget, ⟨topic, message⟩, hmessage, sent, hsent, taken, htaken, url, hurl,
    hnext⟩ := h
  have hpublished := List.mem_of_find?_eq_some hmessage
  obtain rfl : topic = .process := by simpa using List.find?_some hmessage
  have hdownload : Coro.Ends Seen.notes (Downloader.download p) {} (downloaded p location).1 (downloaded p location).2 :=
    Coro.ends_run (fun _ _ => rfl) _ _
  have hprocess : Coro.Ends Seen.notes (Frontier.process taken) {} (processed taken).1 (processed taken).2 :=
    Coro.ends_run (fun _ _ => rfl) _ _
  refine ⟨⟨p, _, _, _, response, target, hdownload, hresponse, htarget⟩, rfl, List.ne_nil_of_mem hpublished, ?_⟩
  rintro v' rfl
  exact ⟨message, sent, exampleDefaults, taken, _, _, _, url, hpublished, hsent, htaken, hprocess, hurl, hnext⟩

/-- Redirects that are followed make a chain. -/
theorem exists_isChain (locations : List String) (p : Payload asciiRuntime)
    (h : (locations.foldlM followed? p).isSome = true) :
    ∃ visits : List (Visit asciiRuntime), visits.length = locations.length ∧ visits.IsChain Leads ∧
      (∀ v ∈ visits.head?, v.payload = p) ∧ ∀ v ∈ visits, v.seen.published ≠ [] := by
  induction locations generalizing p with
  | nil =>
    refine ⟨[], rfl, .nil, ?_, ?_⟩
    · exact fun v hv => absurd hv (by simp)
    · exact fun v hv => absurd hv List.not_mem_nil
  | cons location locations ih =>
    obtain ⟨last, hlast⟩ := Option.isSome_iff_exists.mp h
    rw [List.foldlM_cons, Option.bind_eq_bind, Option.bind_eq_some_iff] at hlast
    obtain ⟨next, hnext, hrest⟩ := hlast
    obtain ⟨visits, hlength, hchain, hhead, hpublished⟩ := ih next (Option.isSome_iff_exists.mpr ⟨last, hrest⟩)
    obtain ⟨v, hv, hvpublished, hleads⟩ := of_followed hnext
    refine ⟨v :: visits, by rw [List.length_cons, hlength, List.length_cons], ?_, ?_, ?_⟩
    · rw [List.isChain_cons]
      exact ⟨fun v' hv' => hleads v' (hhead v' hv'), hchain⟩
    · rintro v' hv'
      obtain rfl : v = v' := Option.some.inj hv'
      exact hv
    · intro v' hv'
      cases List.mem_cons.mp hv' with
      | inl he => exact he ▸ hvpublished
      | inr hv' => exact hpublished v' hv'

/-- The sixth redirect of this chain is published like the others. -/
theorem redirects_unbounded : ∃ visits : List (Visit asciiRuntime), Chain visits ∧ visits.length = 6 ∧
    (∀ v ∈ visits, v.seen.published ≠ []) ∧ ¬ Bounded visits := by
  obtain ⟨p, hp, hfollowed⟩ : ∃ p, siteModel.payload asciiRuntime = some p ∧
      (siteRedirects.foldlM followed? p).isSome = true := by
    have htest : (siteModel.payload asciiRuntime).any (fun p => (siteRedirects.foldlM followed? p).isSome) = true := by
      decide +kernel
    exact (Option.any_eq_true _ _).mp htest
  obtain ⟨visits, hlength, hchain, hhead, hpublished⟩ := exists_isChain siteRedirects p hfollowed
  refine ⟨visits, ⟨?_, hchain⟩, hlength, hpublished, ?_⟩
  · exact fun v hv => ⟨siteModel, by rw [hp, hhead v hv]⟩
  · intro hbounded
    have hlt : 5 < visits.length := by rw [hlength]; decide
    have hsixth : visits[5]? = some visits[5] := List.getElem?_eq_getElem hlt
    exact hpublished _ (List.mem_of_getElem? hsixth) ((hbounded 5 _ hsixth).2 (by decide)).2

theorem redirects_bounded_first : ∃ visits : List (Visit asciiRuntime), visits.length = 1 ∧ Bounded visits := by
  obtain ⟨p, hp, next, hfollowed⟩ : ∃ p, siteModel.payload asciiRuntime = some p ∧
      ∃ next, followed? p "http://site/a" = some next := by
    have htest : (siteModel.payload asciiRuntime).any (fun p => (followed? p "http://site/a").isSome) = true := by
      decide +kernel
    obtain ⟨p, hp, hnext⟩ := (Option.any_eq_true _ _).mp htest
    exact ⟨p, hp, Option.isSome_iff_exists.mp hnext⟩
  obtain ⟨v, rfl, -, -⟩ := of_followed hfollowed
  have hchain : Chain [v] := by
    refine ⟨?_, .singleton v⟩
    rintro v' hv'
    obtain rfl : v = v' := Option.some.inj hv'
    exact ⟨siteModel, hp⟩
  exact ⟨[v], rfl, (redirects_bounded_iff hchain).mpr (le_refl 1)⟩

end Visit

end Linksurf.Pipeline
