import Linksurf.Executors

/-!
# What a handler does about its crawl

A handler takes a crawl over when it begins one or is given one. It then hands
it on with the payload it publishes, and saves it as being in progress, or saves
it under a terminal status and announces its end. The rules name the order; the
handlers of all components keep to them whatever their services answer.
-/
namespace Linksurf.Pipeline

open Coroutine
open Dicts (Dict)
open Json (Plain)

/-- Where a handler stands with its crawl. -/
inductive Phase where
  | idle
  | begun (id : String)
  | holding (id : String)
  | judged (id : String) (ok : Bool)
  | stored (id : String) (status : CrawlStatus)
  | forwarded (id : String)
  | finished (id : String)
  deriving DecidableEq

/-- The component that takes over what a component publishes. -/
def ComponentName.nextTopic : ComponentName → Option Topic
  | .downloader => some .parse
  | .parser => some .store
  | _ => none

/-- A payload a later component may be given: it has a crawl and a response
that is no redirect. -/
structure Payload.Carries {rt : Runtime} (p : Payload rt) (id : String) : Prop where
  crawl : p.crawlId = some id
  direct : p.response.any (fun r => r.isRedirect) = false

def Update.HasStatus (u : Update) (status : CrawlStatus) : Prop :=
  u.fields.get? .status = some (.str status.value)

/-- A terminal status, `SUCCEEDED` for a store without an error only. -/
def Terminal (c : ComponentName) (ok : Bool) (status : CrawlStatus) : Prop :=
  status ≠ .inProgress ∧ (status = .succeeded ↔ c = .storage ∧ ok = true)

section

variable {rt : Runtime}

/-- What a handler of the component may do in a phase. -/
def Permits (c : ComponentName) (phase : Phase) : Call rt → Prop
  | .emit (.crawlStart id component _ _) => phase = .begun id ∧ component = c
  | .emit (.crawlFinish id component _ _ status) => phase = .stored id status ∧ component = c
  | .emit (.componentStart component p) => component = c ∧
      ((phase = .idle ∧ p.crawlId = none) ∨ ∃ id, phase = .holding id ∧ p.crawlId = some id)
  | .emit (.componentFinish component p) => component = c ∧
      ((phase = .idle ∧ p.crawlId = none) ∨ (∃ id, phase = .holding id ∧ p.crawlId = some id) ∨
        (c ≠ .storage ∧ ∃ id, phase = .forwarded id ∧ p.crawlId = some id))
  | .brokerPublish .process p _ => p.crawlId = none
  | .brokerPublish topic p _ => c.nextTopic = some topic ∧ ∃ id, phase = .holding id ∧ p.Carries id
  | .startCrawl _ crawl => phase = .idle ∧ crawl.values .status = .str CrawlStatus.inProgress.value
  | .updateCrawl u => u.execution.component = c.value ∧
      ((∃ ok status, phase = .judged u.crawlId ok ∧ u.HasStatus status ∧ Terminal c ok status) ∨
        (phase = .forwarded u.crawlId ∧ u.HasStatus .inProgress))
  | _ => True

/-- The phase after an answer. -/
def Follows (phase : Phase) : (call : Call rt) → call.Reply → Phase → Prop
  | .emit (.crawlStart id _ _ _), _, next => next = .holding id
  | .emit (.crawlFinish id _ _ _ _), _, next => next = .finished id
  | .emit (.componentFinish _ _), _, next =>
    (∃ id, phase = .holding id ∧ next = .judged id true) ∨ ((∀ id, phase ≠ .holding id) ∧ next = phase)
  | .emit (.componentError _ _ _), _, next =>
    (∃ id, phase = .holding id ∧ next = .judged id false) ∨ ((∀ id, phase ≠ .holding id) ∧ next = phase)
  | .brokerPublish .process _ _, _, next => next = phase
  | .brokerPublish _ _ _, .ok (), next => ∃ id, phase = .holding id ∧ next = .forwarded id
  | .startCrawl _ crawl, .ok (), next => next = .begun crawl.id
  | .updateCrawl u, _, next =>
    (∃ ok status, phase = .judged u.crawlId ok ∧ u.HasStatus status ∧ next = .stored u.crawlId status) ∨
      (phase = .forwarded u.crawlId ∧ next = .finished u.crawlId)
  | _, _, next => next = phase

def conduct (c : ComponentName) : Coro.Rules (Call rt) Call.Reply Phase := ⟨Permits c, Follows⟩

/-- A handler may end where it has no crawl, or is done with it. -/
def Phase.Settled (phase : Phase) : Prop := phase = .idle ∨ ∃ id, phase = .finished id

/-! ## Calls that do not concern a crawl -/

/-- The calls the rules do not speak of. -/
def Call.Neutral : Call rt → Prop
  | .emit _ | .brokerPublish _ _ _ | .startCrawl _ _ | .updateCrawl _ => False
  | _ => True

variable {c : ComponentName} {phase : Phase} {p : Payload rt}

/-- The answer to a neutral call changes nothing. -/
theorem conduct_ignores {call : Call rt} (h : call.Neutral) : (conduct c).Ignores phase call := by
  constructor
  · cases call <;> first | exact h.elim | trivial
  · intro reply next hf
    cases call <;> first | exact h.elim | exact hf

theorem conduct_executes (call : Call rt) (h : call.Executes) : (conduct c).Ignores phase call := by
  apply conduct_ignores
  cases call <;> first | exact h.elim | trivial

theorem keeps_emit {event : Event rt} {Q : Except Raised Unit → Payload rt → Phase → Prop} :
    Proc.Keeps (conduct c) Q (emit event) p phase ↔
      Permits c phase (.emit event) ∧ ∀ next, Follows phase (.emit event) () next → Q (.ok ()) p next :=
  ⟨fun h => ⟨h.1, fun next => h.2 () next⟩, fun h => ⟨h.1, fun _ next => h.2 next⟩⟩

theorem keeps_deduplicate {component : Component} {Q : Except Raised (Except Error Bool) → Payload rt → Phase → Prop}
    (hQ : ∀ r b, Q r { p with deduplicated := b } phase) :
    Proc.Keeps (conduct c) Q component.deduplicate p phase := by
  unfold Component.deduplicate
  split
  · exact hQ _ p.deduplicated
  rw [Proc.keeps_bind, Proc.keeps_read, Proc.after_ok]
  split
  · exact hQ _ p.deduplicated
  rw [Proc.keeps_bind, Proc.keeps_read, Proc.after_ok]
  refine Proc.keeps_ask (conduct_ignores (by trivial)) (fun seen => ?_)
  cases seen with
  | error e => exact hQ _ p.deduplicated
  | ok seen =>
    cases seen with
    | true => exact hQ _ true
    | false =>
      change Proc.Keeps _ _ (payload >>= fun q => await (.markUrlSeen q.url) >>= _) _ _
      rw [Proc.keeps_bind, Proc.keeps_read, Proc.after_ok]
      refine Proc.keeps_ask (conduct_ignores (by trivial)) (fun marked => ?_)
      cases marked with
      | error e => exact hQ _ p.deduplicated
      | ok _ => exact hQ _ true

/-! ## Publishing -/

theorem keeps_buildURL {address : List Char} {Q : Except Raised (BuiltURL rt) → Payload rt → Phase → Prop}
    (hQ : ∀ r, Q r p phase) : Proc.Keeps (conduct c) Q (buildURL address) p phase := by
  unfold buildURL
  cases BuiltURL.ofAddress rt address <;> exact hQ _

/-- A new payload has no crawl. -/
theorem keeps_newPayload {url : BuiltURL rt} {redirects : List Redirect}
    {Q : Except Raised (Payload rt) → Payload rt → Phase → Prop}
    (hQ : ∀ q : Payload rt, q.crawlId = none → Q (.ok q) p phase) :
    Proc.Keeps (conduct c) Q (newPayload url redirects) p phase := by
  refine Proc.keeps_ask (conduct_ignores (by trivial)) (fun id => ?_)
  refine Proc.keeps_ask (conduct_ignores (by trivial)) (fun time => ?_)
  exact hQ _ rfl

/-- Payloads without a crawl may go to the Frontier any time. -/
theorem keeps_publish_process {ps : List (Payload rt)} (h : ∀ q ∈ ps, q.crawlId = none)
    {Q : Except Raised Unit → Payload rt → Phase → Prop} (hQ : ∀ r, Q r p phase) :
    Proc.Keeps (conduct c) Q (publish .process ps) p phase := by
  induction ps with
  | nil => exact hQ _
  | cons q ps ih =>
    simp only [publish, Proc.keeps_bind, Proc.keeps_call]
    refine ⟨h q (List.mem_cons_self ..), ?_⟩
    rintro reply next rfl
    cases reply with
    | error e => exact hQ _
    | ok _ => exact ih (fun q hq => h q (List.mem_cons_of_mem _ hq))

/-- Handing a payload on ends the hold on its crawl, unless the publish raises. -/
theorem keeps_publish_next {topic : Topic} {q : Payload rt} {id : String} (htopic : c.nextTopic = some topic)
    (hq : q.Carries id) {Q : Except Raised Unit → Payload rt → Phase → Prop}
    (hok : Q (.ok ()) p (.forwarded id)) (herror : ∀ e, Q (.error e) p (.holding id)) :
    Proc.Keeps (conduct c) Q (publish topic [q]) p (.holding id) := by
  have htopic' : topic = .parse ∨ topic = .store := by
    cases c <;> simp_all [ComponentName.nextTopic]
  simp only [publish, Proc.keeps_bind, Proc.keeps_call]
  constructor
  · obtain rfl | rfl := htopic'
    · exact ⟨htopic, id, rfl, hq⟩
    · exact ⟨htopic, id, rfl, hq⟩
  · intro reply next hf
    cases reply with
    | error e =>
      have hnext : next = .holding id := by
        obtain rfl | rfl := htopic'
        · exact hf
        · exact hf
      rw [hnext]
      exact herror e
    | ok _ =>
      have hnext : next = .forwarded id := by
        obtain ⟨id', hid, hnext⟩ : ∃ id', Phase.holding id = .holding id' ∧ next = .forwarded id' := by
          obtain rfl | rfl := htopic'
          · exact hf
          · exact hf
        cases hid
        exact hnext
      rw [hnext]
      exact hok

/-! ## Callbacks -/

/-- How a callback leaves its payload and its crawl to the handler: without a
crawl, still holding it, or having handed it on. -/
inductive Left (c : ComponentName) (r : Except Raised (Option Error)) (p : Payload rt) : Phase → Prop
  | free : p.crawlId = none → Left c r p .idle
  | held {id : String} : p.crawlId = some id →
      (Component.errorOf r = none →
        p.published = false ∧ (c = .storage → p.response.any (fun r => r.isRedirect) = false)) →
      Left c r p (.holding id)
  | passed {id : String} : p.crawlId = some id → p.published = true → Component.errorOf r = none → c ≠ .storage →
      Left c r p (.forwarded id)

variable {id : String}

/-- An error is as good as an exception to the handler. -/
theorem Left.failed {r : Except Raised (Option Error)} (hid : p.crawlId = some id)
    (hr : Component.errorOf r ≠ none) : Left c r p (.holding id) := .held hid (fun h => absurd h hr)

theorem Left.skipped {r : Except Raised (Option Error)} (hid : p.crawlId = some id) (hp : p.published = false)
    (hc : c ≠ .storage) : Left c r p (.holding id) := .held hid (fun _ => ⟨hp, fun h => absurd h hc⟩)

theorem errorOf_error (e : Raised) : Component.errorOf (.error e) ≠ none := by simp [Component.errorOf]

theorem errorOf_some (e : Error) : Component.errorOf (.ok (some e)) ≠ none := by simp [Component.errorOf]

namespace Downloader

theorem keeps_storePage {response : HTTPResponse rt} (hp : p.Carries id) :
    Proc.Keeps (conduct .downloader) (Left .downloader) (storePage response) p (.holding id) := by
  rw [storePage, Proc.keeps_bind, Proc.keeps_read, Proc.after_ok]
  refine Proc.keeps_ask (conduct_ignores (by trivial)) (fun uploaded => ?_)
  cases uploaded with
  | error e => exact .failed hp.crawl (errorOf_some _)
  | ok _ =>
    simp only [Proc.keeps_bind, Proc.keeps_assign, Proc.keeps_read, Proc.after_ok]
    apply keeps_publish_next
    · rfl
    · exact ⟨hp.crawl, hp.direct⟩
    · exact .passed hp.crawl rfl rfl (by decide)
    · exact fun e => .failed hp.crawl (errorOf_error e)

theorem keeps_handleRedirect {response : HTTPResponse rt} (hid : p.crawlId = some id) (hp : p.published = false) :
    Proc.Keeps (conduct .downloader) (Left .downloader) (handleRedirect response) p (.holding id) := by
  unfold handleRedirect
  dsimp only
  split
  · exact .failed hid (errorOf_some _)
  simp only [Proc.keeps_bind, Proc.keeps_read, Proc.keeps_value, Proc.after_ok]
  cases (rt.urljoin _ _).elim (Except.error valueError) Except.ok with
  | error e => exact .failed hid (errorOf_error e)
  | ok joined =>
    rw [Proc.after_ok, Proc.keeps_bind]
    apply keeps_buildURL
    intro built
    cases built with
    | error e => exact .failed hid (errorOf_error e)
    | ok target =>
      simp only [Proc.after_ok, Proc.keeps_bind, Proc.keeps_assign]
      split
      · exact .failed hid (errorOf_some _)
      simp only [Proc.keeps_bind, Proc.keeps_read, Proc.after_ok]
      apply keeps_newPayload
      intro q hq
      rw [Proc.after_ok, Proc.keeps_bind]
      apply keeps_publish_process (by simpa using hq)
      intro r
      cases r with
      | error e => exact .failed hid (errorOf_error e)
      | ok _ => exact .skipped hid hp (by decide)

theorem keeps_handleResponse {response : HTTPResponse rt} (hid : p.crawlId = some id) (hp : p.published = false) :
    Proc.Keeps (conduct .downloader) (Left .downloader) (handleResponse response) p (.holding id) := by
  simp only [handleResponse, Proc.keeps_bind, Proc.keeps_assign, Proc.after_ok]
  split
  · exact keeps_handleRedirect hid hp
  rename_i hdirect
  split
  · rw [Proc.keeps_bind]
    apply keeps_filter conduct_executes
    intro r m
    cases r with
    | error e => exact .failed hid (errorOf_error e)
    | ok proceed =>
      cases proceed with
      | error e => exact .failed hid (errorOf_some e)
      | ok proceed =>
        cases proceed with
        | false => exact .skipped hid hp (by decide)
        | true => exact keeps_storePage ⟨hid, by simpa [HTTPResponse.toSummary, HTTPResponseSummary.isRedirect,
            HTTPResponse.isRedirect] using hdirect⟩
  · exact .failed hid (errorOf_some _)

theorem keeps_fetchPage (hid : p.crawlId = some id) (hp : p.published = false) :
    Proc.Keeps (conduct .downloader) (Left .downloader) fetchPage p (.holding id) := by
  rw [fetchPage, Proc.keeps_bind, Proc.keeps_read, Proc.after_ok]
  refine Proc.keeps_ask (conduct_ignores (by trivial)) (fun fetched => ?_)
  rw [Proc.keeps_bind, Proc.keeps_assign, Proc.after_ok, Proc.keeps_bind, Proc.keeps_read, Proc.after_ok]
  refine Proc.keeps_ask (conduct_ignores (by trivial)) (fun reported => ?_)
  rw [Proc.keeps_bind, Proc.keeps_value]
  cases reported with
  | error e => exact .failed hid (errorOf_error e)
  | ok _ =>
    rw [Proc.after_ok]
    cases fetched.outcome with
    | error e => exact .failed hid (errorOf_some _)
    | ok response =>
      cases response with
      | none => exact .failed hid (errorOf_some _)
      | some response => exact keeps_handleResponse hid hp

/-- The start of a crawl: where it fails there is none. -/
theorem keeps_beginCrawl (hid : p.crawlId = none) {Q : Except Raised (Option Error) → Payload rt → Phase → Prop}
    (hfailed : ∀ r, Component.errorOf r ≠ none → Q r p .idle) (hbegun : ∀ id, Q (.ok none) { p with crawlId := some id } (.holding id)) :
    Proc.Keeps (conduct .downloader) Q beginCrawl p .idle := by
  rw [beginCrawl, Proc.keeps_bind, Proc.keeps_read, Proc.after_ok, hid]
  refine Proc.keeps_ask (conduct_ignores (by trivial)) (fun id => ?_)
  refine Proc.keeps_ask (conduct_ignores (by trivial)) (fun startedAt => ?_)
  refine Proc.keeps_ask (conduct_ignores (by trivial)) (fun finishedAt => ?_)
  rw [Proc.keeps_bind, Proc.keeps_call]
  refine ⟨⟨rfl, rfl⟩, ?_⟩
  intro started next hnext
  cases started with
  | error e =>
    obtain rfl := hnext
    change Proc.Keeps _ _ (await (.complete p) >>= fun completed => Proc.value completed >>= _) _ _
    refine Proc.keeps_ask (conduct_ignores (by trivial)) (fun completed => ?_)
    rw [Proc.keeps_bind, Proc.keeps_value]
    cases completed with
    | error e => exact hfailed _ (errorOf_error e)
    | ok _ => exact hfailed _ (errorOf_some _)
  | ok _ =>
    obtain rfl := hnext
    rw [Proc.after_ok, Proc.keeps_bind, Proc.keeps_assign, Proc.after_ok, Proc.keeps_bind, keeps_emit]
    refine ⟨⟨rfl, rfl⟩, ?_⟩
    rintro next rfl
    exact hbegun id

theorem keeps_download (hid : p.crawlId = none) (hp : p.published = false) :
    Proc.Keeps (conduct .downloader) (Left .downloader) download p .idle := by
  rw [download, Proc.keeps_bind]
  apply keeps_beginCrawl hid
  · intro r hr
    cases r with
    | error e => exact .free hid
    | ok error =>
      cases error with
      | some error => exact .free hid
      | none => exact absurd rfl hr
  · exact fun id => keeps_fetchPage rfl hp

end Downloader

namespace Parser

theorem keeps_uniqueUrls {current : List Char} {links : List (Json.Value Link)} {unique : Dict String (BuiltURL rt)}
    {Q : Except Raised (List (BuiltURL rt)) → Payload rt → Phase → Prop} (hQ : ∀ r, Q r p phase) :
    Proc.Keeps (conduct c) Q (uniqueUrls current links unique) p phase := by
  induction links generalizing unique with
  | nil => exact hQ _
  | cons link links ih =>
    cases link with
    | record link =>
      rw [uniqueUrls, Proc.keeps_bind]
      apply keeps_buildURL
      intro r
      cases r with
      | error e => exact hQ _
      | ok url =>
        rw [Proc.after_ok]
        split
        · exact ih
        · exact ih
    | _ => exact ih

theorem keeps_newPayloads {urls : List (BuiltURL rt)}
    {Q : Except Raised (List (Payload rt)) → Payload rt → Phase → Prop}
    (hQ : ∀ qs : List (Payload rt), (∀ q ∈ qs, q.crawlId = none) → Q (.ok qs) p phase) :
    Proc.Keeps (conduct c) Q (newPayloads urls) p phase := by
  induction urls generalizing Q with
  | nil => exact hQ [] (by simp)
  | cons url urls ih =>
    rw [newPayloads, Proc.keeps_bind]
    apply keeps_newPayload
    intro q hq
    rw [Proc.after_ok, Proc.keeps_bind]
    apply ih
    intro qs hqs
    apply hQ
    intro q' hq'
    cases List.mem_cons.mp hq' with
    | inl he => rw [he]; exact hq
    | inr hq' => exact hqs q' hq'

/-- Links are published without a crawl. -/
theorem keeps_filterAndPublishLinks {data : Json.Value Link} {Q : Except Raised Unit → Payload rt → Phase → Prop}
    (hQ : ∀ r, Q r p phase) : Proc.Keeps (conduct c) Q (filterAndPublishLinks data) p phase := by
  cases data with
  | list links =>
    rw [filterAndPublishLinks, Proc.keeps_bind, Proc.keeps_read, Proc.after_ok, Proc.keeps_bind]
    apply keeps_uniqueUrls
    intro r
    cases r with
    | error e => exact hQ _
    | ok urls =>
      rw [Proc.after_ok]
      refine Proc.keeps_ask (conduct_ignores (by trivial)) (fun seen => ?_)
      cases seen with
      | error e => exact hQ _
      | ok seen =>
        change Proc.Keeps _ _ (newPayloads _ >>= fun payloads => publish .process payloads) _ _
        rw [Proc.keeps_bind]
        apply keeps_newPayloads
        intro qs hqs
        exact keeps_publish_process hqs hQ
  | _ => exact hQ _

theorem keeps_collect {results : List ExtractorResult} {extracted : Dict String (Json.Value Link)}
    {Q : Except Raised (Dict String (Json.Value Link)) → Payload rt → Phase → Prop} (hQ : ∀ r, Q r p phase) :
    Proc.Keeps (conduct c) Q (collect results extracted) p phase := by
  induction results generalizing extracted with
  | nil => exact hQ _
  | cons result results ih =>
    unfold collect
    split
    · exact ih
    split
    · rw [Proc.keeps_bind]
      apply keeps_filterAndPublishLinks
      intro r
      cases r with
      | error e => exact hQ _
      | ok _ => exact ih
    · exact ih

theorem keeps_finish {extracted : Dict String (Json.Value Link)} (hp : p.Carries id) (hpub : p.published = false) :
    Proc.Keeps (conduct .parser) (Left .parser) (finish extracted) p (.holding id) := by
  rw [finish, Proc.keeps_bind, Proc.keeps_assign, Proc.after_ok, Proc.keeps_bind]
  apply keeps_filter conduct_executes
  intro r m
  cases r with
  | error e => exact .failed hp.crawl (errorOf_error e)
  | ok proceed =>
    rw [Proc.after_ok, Proc.keeps_bind, Proc.keeps_assign, Proc.after_ok]
    cases proceed with
    | error e => exact .failed hp.crawl (errorOf_some e)
    | ok proceed =>
      cases proceed with
      | false => exact .skipped hp.crawl hpub (by decide)
      | true =>
        simp only [Proc.keeps_bind, Proc.keeps_assign, Proc.keeps_read, Proc.after_ok]
        apply keeps_publish_next
        · rfl
        · exact ⟨hp.crawl, hp.direct⟩
        · exact .passed hp.crawl rfl rfl (by decide)
        · exact fun e => .failed hp.crawl (errorOf_error e)

theorem keeps_parse (hp : p.Carries id) (hpub : p.published = false) :
    Proc.Keeps (conduct .parser) (Left .parser) parse p (.holding id) := by
  rw [parse, Proc.keeps_bind, Proc.keeps_read, Proc.after_ok]
  cases p.content with
  | none => exact .failed hp.crawl (errorOf_some _)
  | some content =>
    refine Proc.keeps_ask (conduct_ignores (by trivial)) (fun downloaded => ?_)
    cases downloaded with
    | error e => exact .failed hp.crawl (errorOf_some _)
    | ok contents =>
      cases contents with
      | none => exact .failed hp.crawl (errorOf_some _)
      | some contents =>
        change Proc.Keeps _ _ (payload >>= fun q => await (.extract q contents) >>= _) _ _
        rw [Proc.keeps_bind, Proc.keeps_read, Proc.after_ok]
        refine Proc.keeps_ask (conduct_ignores (by trivial)) (fun results => ?_)
        rw [Proc.keeps_bind, Proc.keeps_value]
        cases results with
        | error e => exact .failed hp.crawl (errorOf_error e)
        | ok results =>
          rw [Proc.after_ok]
          split
          · exact .failed hp.crawl (errorOf_some _)
          · rw [Proc.keeps_bind]
            apply keeps_collect
            intro r
            cases r with
            | error e => exact .failed hp.crawl (errorOf_error e)
            | ok extracted => exact keeps_finish hp hpub

end Parser

namespace Storage

theorem keeps_store (hp : p.Carries id) (hpub : p.published = false) :
    Proc.Keeps (conduct .storage) (Left .storage) store p (.holding id) := by
  rw [store, Proc.keeps_bind, Proc.keeps_read, Proc.after_ok]
  split
  · refine Proc.keeps_ask (conduct_ignores (by trivial)) (fun updated => ?_)
    cases updated with
    | error e => exact .failed hp.crawl (errorOf_some _)
    | ok _ => exact .held hp.crawl (fun _ => ⟨hpub, fun _ => hp.direct⟩)
  · exact .failed hp.crawl (errorOf_some _)

end Storage

namespace Frontier

theorem keeps_register (hid : p.crawlId = none) :
    Proc.Keeps (conduct .frontier) (Left .frontier) register p .idle := by
  rw [register, Proc.keeps_bind, Proc.keeps_read, Proc.after_ok, Proc.keeps_bind]
  cases p.url.domain with
  | none => exact .free hid
  | some domain =>
    rw [bucketize, Proc.keeps_pure, Proc.after_ok]
    refine Proc.keeps_ask (conduct_ignores (by trivial)) (fun registered => ?_)
    cases registered with
    | error e => exact .free hid
    | ok _ =>
      refine Proc.keeps_ask (conduct_ignores (by trivial)) (fun saved => ?_)
      cases saved with
      | error e => exact .free hid
      | ok _ =>
        change Proc.Keeps _ _ (emit _ >>= _) _ _
        rw [Proc.keeps_bind, keeps_emit]
        refine ⟨trivial, ?_⟩
        rintro next rfl
        exact .free hid

theorem keeps_processNew (hid : p.crawlId = none) : Proc.Keeps (conduct .frontier) (Left .frontier) processNew p .idle := by
  rw [processNew, Proc.keeps_bind]
  apply keeps_filter conduct_executes
  intro r m
  cases r with
  | error e => exact .free hid
  | ok proceed =>
    cases proceed with
    | error e => exact .free hid
    | ok proceed =>
      cases proceed with
      | false => exact .free hid
      | true =>
        change Proc.Keeps _ _ (Component.prioritize frontier >>= _) _ _
        rw [Proc.keeps_bind]
        apply keeps_prioritize conduct_executes
        intro r m
        cases r with
        | error e => exact .free hid
        | ok priority =>
          cases priority with
          | error e => exact .free hid
          | ok priority => exact keeps_register hid

theorem keeps_process (hid : p.crawlId = none) :
    Proc.Keeps (conduct .frontier) (Left .frontier) process p .idle := by
  rw [process, Proc.keeps_bind]
  apply keeps_judgeAll conduct_executes
  intro r m
  cases r with
  | error e => exact .free hid
  | ok proceed =>
    cases proceed with
    | error e => exact .free hid
    | ok proceed =>
      cases proceed with
      | false => exact .free hid
      | true =>
        change Proc.Keeps _ _ (Component.deduplicate frontier >>= _) _ _
        rw [Proc.keeps_bind]
        apply keeps_deduplicate
        intro r b
        cases r with
        | error e => exact .free hid
        | ok seen =>
          cases seen with
          | error e => exact .free hid
          | ok seen =>
            cases seen with
            | true => exact .free hid
            | false => exact keeps_processNew hid

end Frontier

/-! ## Handlers -/

theorem CrawlStatus.value_injective : Function.Injective CrawlStatus.value := by
  intro s t h
  cases s <;> cases t <;> first | rfl | exact absurd h (by decide)

theorem Update.HasStatus.unique {u : Update} {s t : CrawlStatus} (hs : u.HasStatus s) (ht : u.HasStatus t) : s = t := by
  unfold Update.HasStatus at hs ht
  rw [hs] at ht
  have hvalue : s.value = t.value := by
    injection ht with ht
    injection ht
  exact CrawlStatus.value_injective hvalue

theorem crawlFields_status (p : Payload rt) (finishedAt : Option IsoFormat.DateTime) (status : CrawlStatus) :
    (crawlFields p finishedAt status).get? .status = some (.str status.value) := Dict.get?_set_same ..

/-- The final component is the Storage. -/
def Component.Final (component : Component) : Prop := component.final = true ↔ component.name = .storage

variable {component : Component} {r : Except Raised (Option Error)}

/-- The status of a crawl that was not handed on. -/
theorem crawlStatus_terminal (hfinal : component.Final)
    (h : Component.errorOf r = none →
      p.published = false ∧ (component.name = .storage → p.response.any (fun r => r.isRedirect) = false)) :
    Terminal component.name (Component.errorOf r).isNone (component.crawlStatus p (Component.errorOf r)) := by
  unfold Component.crawlStatus
  cases herror : Component.errorOf r with
  | some e => exact ⟨by simp, by simp⟩
  | none =>
    obtain ⟨hpublished, hdirect⟩ := h herror
    rw [if_neg (by simp), if_neg (by simp [hpublished])]
    split
    · rename_i hredirect
      have hname : component.name ≠ .storage := fun hn => by rw [hdirect hn] at hredirect; cases hredirect
      exact ⟨by decide, by simp [hname]⟩
    · split
      · rename_i hf
        exact ⟨by decide, by simp [hfinal.mp hf]⟩
      · rename_i hf
        have hname : component.name ≠ .storage := fun hn => hf (hfinal.mpr hn)
        exact ⟨by decide, by simp [hname]⟩

theorem withError_component (execution : ComponentExecution) (error : Option Error) :
    (execution.withError error).component = execution.component := by cases error <;> rfl

/-- The phase after the event about the outcome of a callback. -/
def Phase.judge (ok : Bool) : Phase → Phase
  | .holding id => .judged id ok
  | phase => phase

theorem keeps_saveExecution {execution : ComponentExecution} (hfinal : component.Final)
    (hname : execution.component = component.name.value) (h : Left component.name r p phase) :
    Proc.Keeps (conduct component.name) (fun _ _ next => next.Settled)
      (component.saveExecution execution (Component.errorOf r)) p
      (phase.judge (Component.errorOf r).isNone) := by
  rw [Component.saveExecution, Proc.keeps_bind, Proc.keeps_read, Proc.after_ok]
  cases h with
  | free hid =>
    rw [hid]
    exact .inl rfl
  | held hid hok =>
    rw [hid]
    have hterminal := crawlStatus_terminal hfinal hok
    change Proc.Keeps _ _ (await _ >>= _) _ _
    rw [Proc.keeps_bind, Proc.keeps_call]
    constructor
    · exact ⟨(withError_component _ _).trans hname, .inl ⟨_, _, rfl, crawlFields_status .., hterminal⟩⟩
    · intro reply next hnext
      obtain ⟨ok, status, -, hstatus, rfl⟩ | ⟨himpossible, -⟩ := hnext
      · obtain rfl := hstatus.unique (crawlFields_status ..)
        rw [Proc.after_ok, if_neg hterminal.1, keeps_emit]
        refine ⟨⟨rfl, rfl⟩, ?_⟩
        rintro next rfl
        exact .inr ⟨_, rfl⟩
      · cases himpossible
  | passed hid hpublished herror hstorage =>
    have hstatus : component.crawlStatus p (Component.errorOf r) = .inProgress := by
      simp [Component.crawlStatus, herror, hpublished]
    rw [hid]
    change Proc.Keeps _ _ (await _ >>= _) _ _
    rw [Proc.keeps_bind, Proc.keeps_call, hstatus]
    constructor
    · exact ⟨(withError_component _ _).trans hname, .inr ⟨rfl, crawlFields_status ..⟩⟩
    · intro reply next hnext
      obtain ⟨ok, status, himpossible, -⟩ | ⟨-, rfl⟩ := hnext
      · cases himpossible
      · exact .inr ⟨_, rfl⟩

/-- The event about the outcome may be emitted, and judges a crawl still held. -/
theorem keeps_outcomeEvent {Q : Except Raised Unit → Payload rt → Phase → Prop} (h : Left component.name r p phase)
    (hQ : Q (.ok ()) p (phase.judge (Component.errorOf r).isNone)) :
    Proc.Keeps (conduct component.name) Q (emit (component.outcomeEvent p (Component.errorOf r))) p phase := by
  have hjudge (ok : Bool) (next : Phase) (hok : (Component.errorOf r).isNone = ok)
      (hnext : (∃ id, phase = .holding id ∧ next = .judged id ok) ∨ ((∀ id, phase ≠ .holding id) ∧ next = phase)) :
      Q (.ok ()) p next := by
    rw [hok] at hQ
    cases hnext with
    | inl hheld =>
      obtain ⟨id, rfl, rfl⟩ := hheld
      exact hQ
    | inr hother =>
      obtain ⟨hother, rfl⟩ := hother
      cases h with
      | free _ => exact hQ
      | held _ _ => exact absurd rfl (hother _)
      | passed _ _ _ _ => exact hQ
  rw [keeps_emit]
  cases herror : Component.errorOf r with
  | some e => exact ⟨trivial, fun next => hjudge false next (by rw [herror]; rfl)⟩
  | none =>
    refine ⟨⟨rfl, ?_⟩, fun next => hjudge true next (by rw [herror]; rfl)⟩
    cases h with
    | free hid => exact .inl ⟨rfl, hid⟩
    | held hid _ => exact .inr (.inl ⟨_, rfl, hid⟩)
    | passed hid _ _ hstorage => exact .inr (.inr ⟨hstorage, _, rfl, hid⟩)

/-- A handler starts without a crawl, or holding the one it is given. -/
def Phase.Starts (p : Payload rt) (phase : Phase) : Prop :=
  (phase = .idle ∧ p.crawlId = none) ∨ ∃ id, phase = .holding id ∧ p.crawlId = some id

theorem countRetry_crawlId (p : Payload rt) : (Component.countRetry p).crawlId = p.crawlId := by
  unfold Component.countRetry
  split <;> rfl

/-- A handler keeps to the rules if its callback does. -/
theorem keeps_handle (component : Component) {callback : Task rt (Option Error)} (hfinal : component.Final) (hstart : phase.Starts p)
    (h : Proc.Keeps (conduct component.name) (Left component.name) callback (Component.countRetry p) phase) :
    Proc.Keeps (conduct component.name) (fun _ _ next => next.Settled) (component.handle callback) p phase := by
  refine Proc.keeps_ask (conduct_ignores (by trivial)) (fun startedAt => ?_)
  rw [Proc.keeps_bind, Proc.keeps_assign, Proc.after_ok, Proc.keeps_bind, Proc.keeps_read, Proc.after_ok,
    Proc.keeps_bind, keeps_emit]
  refine ⟨⟨rfl, by rw [countRetry_crawlId]; exact hstart⟩, ?_⟩
  rintro next rfl
  rw [Proc.after_ok, Proc.keeps_bind, Proc.keeps_attempt]
  apply Proc.keeps_mono h
  intro r q next hleft
  rw [Proc.after_ok]
  refine Proc.keeps_ask (conduct_ignores (by trivial)) (fun finishedAt => ?_)
  rw [Proc.keeps_bind, Proc.keeps_read, Proc.after_ok, Proc.keeps_bind]
  apply keeps_outcomeEvent hleft
  exact keeps_saveExecution hfinal rfl hleft

/-- How a component is given a payload: new, or with a crawl to go on with. -/
inductive Given (p : Payload rt) : ComponentName → Phase → Prop
  | new {c : ComponentName} : c = .frontier ∨ c = .downloader → p.crawlId = none → Given p c .idle
  | passed {c : ComponentName} {id : String} : c = .parser ∨ c = .storage → p.Carries id → Given p c (.holding id)

theorem Payload.Carries.countRetry (h : p.Carries id) : (Component.countRetry p).Carries id := by
  unfold Component.countRetry
  split
  · exact ⟨h.crawl, h.direct⟩
  · exact h

theorem countRetry_published (p : Payload rt) : (Component.countRetry p).published = p.published := by
  unfold Component.countRetry
  split <;> rfl

/-- Every component keeps to the rules and is done with its crawl in the end. -/
theorem keeps_handler (h : Given p c phase) (hp : p.published = false) :
    Proc.Keeps (conduct c) (fun _ _ next => next.Settled) (handler c) p phase := by
  have hpublished : (Component.countRetry p).published = false := (countRetry_published p).trans hp
  cases h with
  | new hc hid =>
    have hnone : (Component.countRetry p).crawlId = none := (countRetry_crawlId p).trans hid
    obtain rfl | rfl := hc
    · apply keeps_handle frontier
      · exact ⟨nofun, nofun⟩
      · exact .inl ⟨rfl, hid⟩
      · exact Frontier.keeps_process hnone
    · apply keeps_handle downloader
      · exact ⟨nofun, nofun⟩
      · exact .inl ⟨rfl, hid⟩
      · exact Downloader.keeps_download hnone hpublished
  | passed hc hcarries =>
    obtain rfl | rfl := hc
    · apply keeps_handle parser
      · exact ⟨nofun, nofun⟩
      · exact .inr ⟨_, rfl, hcarries.crawl⟩
      · exact Parser.keeps_parse hcarries.countRetry hpublished
    · apply keeps_handle storage
      · exact ⟨fun _ => rfl, fun _ => rfl⟩
      · exact .inr ⟨_, rfl, hcarries.crawl⟩
      · exact Storage.keeps_store hcarries.countRetry hpublished

end

end Linksurf.Pipeline
