import Linksurf.Interleaving

/-!
# What an answer can do

One answer to a handler that keeps to the rules, as it changes the phase of the
handler, the broker, the database and the events. Everything else about the
interleaved handlers is read off these cases.
-/
namespace Linksurf.Pipeline

open Coroutine
open Json (Plain throughJson)

/-- The crawl of a handler in a phase. -/
def Phase.crawl? : Phase → Option String
  | .idle => none
  | .begun id | .holding id | .judged id _ | .stored id _ | .forwarded id | .finished id => some id

/-- The handler still has to save its execution. -/
def Phase.Unsaved : Phase → Prop
  | .stored _ _ | .finished _ => False
  | _ => True

def Crawl.Begins (crawl : Crawl) : Prop := crawl.values .status = .str CrawlStatus.inProgress.value

section

variable {rt : Runtime}

/-- A handler at work and the phase it is in. -/
structure Held (w : Work rt) (phase : Phase) : Prop where
  keeps : Coro.Keeps (conduct w.component) (fun _ next => next.Settled) w.program phase
  crawl : w.crawl = phase.crawl?
  due : w.save = .due ↔ phase.Unsaved

/-- An event of a handler that leaves its phase. -/
def Event.Aside (c : ComponentName) (phase : Phase) : Event rt → Prop
  | .componentStart component p => component = c ∧
      ((phase = .idle ∧ p.crawlId = none) ∨ ∃ id, phase = .holding id ∧ p.crawlId = some id)
  | .componentFinish component p => component = c ∧
      ((phase = .idle ∧ p.crawlId = none) ∨ (c ≠ .storage ∧ ∃ id, phase = .forwarded id ∧ p.crawlId = some id))
  | .componentError _ _ _ | .crawlPending _ _ _ => True
  | .crawlStart _ _ _ _ | .crawlFinish _ _ _ _ _ => False

/-- The event about the outcome of a handler that holds its crawl. -/
def Event.Judges (c : ComponentName) (id : String) (ok : Bool) : Event rt → Prop
  | .componentFinish component p => component = c ∧ p.crawlId = some id ∧ ok = true
  | .componentError _ _ _ => ok = false
  | _ => False

def Save.of (landed : Bool) : Save := if landed then .landed else .lost

/-- A state after a save that took effect or not. -/
def State.saved (s : State rt) (u : Update) (landed : Bool) : State rt := if landed then s.saveCrawl u else s

inductive Beat (w : Work rt) (s : State rt) : Phase → State rt → Save → Phase → Prop
  | quiet {phase : Phase} : Beat w s phase s w.save phase
  | registered {phase : Phase} (url : URLModel) : Beat w s phase (s.register url) w.save phase
  | told {phase : Phase} {event : Event rt} : event.Aside w.component phase → Beat w s phase (s.tell event) w.save phase
  | judged {id : String} {ok : Bool} {event : Event rt} : event.Judges w.component id ok →
      Beat w s (.holding id) (s.tell event) w.save (.judged id ok)
  | announced {id : String} (correlationId url : String) :
      Beat w s (.begun id) (s.tell (.crawlStart id w.component correlationId url)) w.save (.holding id)
  | ended {id : String} {status : CrawlStatus} (correlationId url : String) :
      Beat w s (.stored id status) (s.tell (.crawlFinish id w.component correlationId url status)) w.save (.finished id)
  | sent {phase : Phase} {p : Payload rt} {x : Plain} : p.crawlId = none → throughJson p.toDict = some x →
      Beat w s phase (s.send .process x) w.save phase
  | passed {id : String} {topic : Topic} {p : Payload rt} {x : Plain} : w.component.nextTopic = some topic →
      p.Carries id → throughJson p.toDict = some x → Beat w s (.holding id) (s.send topic x) w.save (.forwarded id)
  | refused {crawl : Crawl} : crawl.id ∉ s.ids → Beat w s .idle (s.refuseCrawl crawl) w.save .idle
  | unanswered {crawl : Crawl} (hash : String) : crawl.id ∉ s.ids → crawl.Begins →
      Beat w s .idle (s.startCrawl hash crawl) w.save .idle
  | begun {crawl : Crawl} (hash : String) : crawl.id ∉ s.ids → crawl.Begins →
      Beat w s .idle (s.startCrawl hash crawl) w.save (.begun crawl.id)
  | concluded {u : Update} {ok : Bool} {status : CrawlStatus} (landed : Bool) : w.awaited = some (.updateCrawl u) →
      u.execution.component = w.component.value → u.HasStatus status → Terminal w.component ok status →
      Beat w s (.judged u.crawlId ok) (s.saved u landed) (.of landed) (.stored u.crawlId status)
  | recorded {u : Update} (landed : Bool) : w.awaited = some (.updateCrawl u) → u.execution.component = w.component.value → u.HasStatus .inProgress →
      Beat w s (.forwarded u.crawlId) (s.saved u landed) (.of landed) (.finished u.crawlId)

variable {w : Work rt} {s : State rt} {phase : Phase}

/-- The phase after an answer, with the handler and the state it leaves. -/
structure Next (w : Work rt) (s : State rt) (phase : Phase) (call : Call rt) (reply : call.Reply) (t : State rt)
    (w' : Work rt) (next : Phase) : Prop where
  follows : Follows phase call reply next
  beat : Beat w s phase t w'.save next
  crawl : w'.crawl = next.crawl?
  due : w'.save = .due ↔ next.Unsaved

theorem Save.of_ne (landed : Bool) : ¬ Save.of landed = .due := by cases landed <;> nofun

section

variable {program : Coro (Call rt) Call.Reply (Except Raised Unit × Payload rt)} (applied : Bool)

theorem emit_next {event : Event rt} (hpermits : Permits w.component phase (.emit event))
    (hcrawl : w.crawl = phase.crawl?) (hdue : w.save = .due ↔ phase.Unsaved) :
    ∃ next, Next w s phase (.emit event) () (s.tell event) (w.follow program (.emit event) () applied) next := by
  cases event with
  | componentStart c p => exact ⟨phase, rfl, .told hpermits, hcrawl, hdue⟩
  | crawlPending c correlationId url => exact ⟨phase, rfl, .told trivial, hcrawl, hdue⟩
  | componentFinish c p =>
    obtain ⟨rfl, hidle | ⟨id, rfl, hid⟩ | hlate⟩ := hpermits
    · refine ⟨phase, .inr ⟨?_, rfl⟩, .told ⟨rfl, .inl hidle⟩, hcrawl, hdue⟩
      rw [hidle.1]
      nofun
    · exact ⟨.judged id true, .inl ⟨id, rfl, rfl⟩, .judged ⟨rfl, hid, rfl⟩, hcrawl, hdue⟩
    · refine ⟨phase, .inr ⟨?_, rfl⟩, .told ⟨rfl, .inr hlate⟩, hcrawl, hdue⟩
      obtain ⟨-, id, rfl, -⟩ := hlate
      nofun
  | componentError c p e =>
    by_cases hheld : ∃ id, phase = .holding id
    · obtain ⟨id, rfl⟩ := hheld
      exact ⟨.judged id false, .inl ⟨id, rfl, rfl⟩, .judged rfl, hcrawl, hdue⟩
    · exact ⟨phase, .inr ⟨fun id he => hheld ⟨id, he⟩, rfl⟩, .told trivial, hcrawl, hdue⟩
  | crawlStart id c correlationId url =>
    obtain ⟨rfl, rfl⟩ := hpermits
    exact ⟨.holding id, rfl, .announced correlationId url, hcrawl, hdue⟩
  | crawlFinish id c correlationId url status =>
    obtain ⟨rfl, rfl⟩ := hpermits
    exact ⟨.finished id, rfl, .ended correlationId url, hcrawl, hdue⟩

theorem publish_next {topic : Topic} {p : Payload rt} {priority : Int} {reply : Except Raised Unit}
    (hpermits : Permits w.component phase (.brokerPublish topic p priority)) (hcrawl : w.crawl = phase.crawl?)
    (hdue : w.save = .due ↔ phase.Unsaved) :
    ∃ next, Next w s phase (.brokerPublish topic p priority) (s.published topic p reply).1 (s.published topic p reply).2
      (w.follow program (.brokerPublish topic p priority) (s.published topic p reply).1 applied) next := by
  have hfailed (e : Raised) : Follows phase (.brokerPublish topic p priority) (.error e) phase := by
    cases topic <;> rfl
  cases reply with
  | error e => exact ⟨phase, hfailed e, .quiet, hcrawl, hdue⟩
  | ok _ =>
    unfold State.published
    cases hx : throughJson p.toDict with
    | none => exact ⟨phase, hfailed typeError, .quiet, hcrawl, hdue⟩
    | some x =>
      cases topic with
      | process => exact ⟨phase, rfl, .sent hpermits hx, hcrawl, hdue⟩
      | parse =>
        obtain ⟨htopic, id, rfl, hp⟩ := hpermits
        exact ⟨.forwarded id, ⟨id, rfl, rfl⟩, .passed htopic hp hx, hcrawl, hdue⟩
      | store =>
        obtain ⟨htopic, id, rfl, hp⟩ := hpermits
        exact ⟨.forwarded id, ⟨id, rfl, rfl⟩, .passed htopic hp hx, hcrawl, hdue⟩

theorem startCrawl_next {hash : String} {crawl : Crawl} {reply : Except Raised Unit}
    (hpermits : Permits w.component phase (.startCrawl hash crawl : Call rt)) (hfresh : crawl.id ∉ s.ids)
    (hcrawl : w.crawl = phase.crawl?) (hdue : w.save = .due ↔ phase.Unsaved) :
    ∃ next, Next w s phase (.startCrawl hash crawl) (s.started hash crawl applied reply).1
      (s.started hash crawl applied reply).2
      (w.follow program (.startCrawl hash crawl) (s.started hash crawl applied reply).1 applied) next := by
  obtain ⟨rfl, hbegins⟩ := hpermits
  cases reply with
  | error e =>
    cases applied with
    | false => exact ⟨.idle, rfl, .refused hfresh, hcrawl, hdue⟩
    | true => exact ⟨.idle, rfl, .unanswered hash hfresh hbegins, hcrawl, hdue⟩
  | ok _ =>
    unfold State.started
    by_cases hexists : s.store.documents.any (fun d => d.hash = hash) = true
    · rw [if_pos hexists]
      exact ⟨.begun crawl.id, rfl, .begun hash hfresh hbegins, rfl, hdue⟩
    · rw [if_neg hexists]
      exact ⟨.idle, rfl, .refused hfresh, hcrawl, hdue⟩

theorem updateCrawl_next {u : Update} {reply : Except Raised Unit} (hawaited : w.awaited = some (.updateCrawl u))
    (hpermits : Permits w.component phase (.updateCrawl u : Call rt))
    (hcrawl : w.crawl = phase.crawl?) :
    ∃ next, Next w s phase (.updateCrawl u) reply (s.serve (.updateCrawl u) reply applied).2
      (w.follow program (.updateCrawl u) reply applied) next := by
  obtain ⟨hcomponent, ⟨ok, status, rfl, hstatus, hterminal⟩ | ⟨rfl, hstatus⟩⟩ := hpermits
  · refine ⟨.stored u.crawlId status, .inl ⟨ok, status, rfl, hstatus, rfl⟩, .concluded (reply.isOk || applied) hawaited hcomponent
      hstatus hterminal, hcrawl, ?_⟩
    exact ⟨fun h => (Save.of_ne _ h).elim, False.elim⟩
  · refine ⟨.finished u.crawlId, .inr ⟨rfl, rfl⟩, .recorded (reply.isOk || applied) hawaited hcomponent hstatus, hcrawl, ?_⟩
    exact ⟨fun h => (Save.of_ne _ h).elim, False.elim⟩

/-- Every answer is one of the cases. -/
theorem serve_next {call : Call rt} {reply : call.Reply} (hawaited : w.awaited = some call) (hpermits : Permits w.component phase call)
    (hfresh : ∀ hash crawl, call = .startCrawl hash crawl → crawl.id ∉ s.ids) (hcrawl : w.crawl = phase.crawl?) (hdue : w.save = .due ↔ phase.Unsaved) :
    ∃ next, Next w s phase call (s.serve call reply applied).1 (s.serve call reply applied).2
      (w.follow program call (s.serve call reply applied).1 applied) next := by
  cases call with
  | emit event => exact emit_next applied hpermits hcrawl hdue
  | brokerPublish topic p priority => exact publish_next applied hpermits hcrawl hdue
  | startCrawl hash crawl => exact startCrawl_next applied hpermits (hfresh hash crawl rfl) hcrawl hdue
  | updateCrawl u => exact updateCrawl_next applied hawaited hpermits hcrawl
  | registerUrl url =>
    unfold State.serve
    dsimp only
    split
    · exact ⟨phase, rfl, .registered url, hcrawl, hdue⟩
    · exact ⟨phase, rfl, .quiet, hcrawl, hdue⟩
  | _ => exact ⟨phase, rfl, .quiet, hcrawl, hdue⟩

end

theorem Work.follow_program (w : Work rt) (program : Coro (Call rt) Call.Reply (Except Raised Unit × Payload rt))
    (call : Call rt) (reply : call.Reply) (applied : Bool) :
    (w.follow program call reply applied).program = program ∧
      (w.follow program call reply applied).component = w.component := by
  unfold Work.follow
  split <;> exact ⟨rfl, rfl⟩

/-- An answer to a handler is a beat of it, and the handler goes on by the rules. -/
theorem answer_beat {t : State rt} {i : Nat} {reply : (call : Call rt) → call.Reply} {applied : Bool}
    (h : s.answer i reply applied = some t) (hfresh : s.Fresh (.answer i reply applied)) (hw : s.work[i]? = some w) (hheld : Held w phase) :
    ∃ s' w' next, Beat w s phase s' w'.save next ∧ Held w' next ∧ w'.component = w.component ∧
      t = { s' with work := s.work.set i w' } := by
  simp only [State.answer, hw, Option.bind_eq_bind, Option.bind_some] at h
  have hkeeps := hheld.keeps
  cases hprogram : w.program with
  | ret a =>
    rw [hprogram] at h
    cases h
  | await call k =>
    rw [hprogram] at h hkeeps
    cases h
    have hawaited : w.awaited = some call := by rw [Work.awaited, hprogram]
    have hnew : ∀ hash crawl, call = .startCrawl hash crawl → crawl.id ∉ s.ids := by
      intro hash crawl he
      apply hfresh hash crawl
      rw [State.awaited, hw, Option.bind_some, hawaited, he]
    obtain ⟨hpermits, hkeeps⟩ := hkeeps
    obtain ⟨next, hnext⟩ := @serve_next _ _ _ _ (k (s.serve call (reply call) applied).1) applied call (reply call)
      hawaited hpermits hnew hheld.crawl hheld.due
    have hfollow (r : call.Reply) := w.follow_program (k r) call r applied
    refine ⟨_, _, next, hnext.beat, ⟨?_, hnext.crawl, hnext.due⟩, (hfollow _).2, rfl⟩
    rw [(hfollow _).1, (hfollow _).2]
    exact hkeeps _ next hnext.follows

end

end Linksurf.Pipeline
