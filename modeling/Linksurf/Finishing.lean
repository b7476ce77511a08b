import Linksurf.Execution
import Linksurf.Succession

/-!
# Every started crawl finishes once

The events say what became of a crawl: whether the Storage succeeded with it,
and with which status it finished. The owner of a crawl knows as much as is
decided, and after the finish no component starts on the crawl.
-/
namespace Linksurf.Pipeline

open Coroutine
open Execution

section

variable {rt : Runtime}

/-- `Storage.store` returned no error for the crawl. -/
def Event.Succeeds (id : String) : Event rt → Prop
  | .componentFinish .storage p => p.crawlId = some id
  | _ => False

/-- A component starts on the crawl. -/
def Event.Processes (id : String) : Event rt → Prop
  | .componentStart _ p => p.crawlId = some id
  | _ => False

def State.StoreSucceeded (s : State rt) (id : String) : Prop := ∃ e ∈ s.events, e.Succeeds id

/-- A status a crawl may finish with. -/
def State.Deserves (s : State rt) (id : String) (status : CrawlStatus) : Prop :=
  status ≠ .inProgress ∧ (status = .succeeded ↔ s.StoreSucceeded id)

/-- What the owner of a crawl knows about it. -/
def State.Agrees (s : State rt) (c : ComponentName) : Phase → Prop
  | .begun id | .holding id => ¬ s.StoreSucceeded id
  | .judged id ok => s.StoreSucceeded id ↔ c = .storage ∧ ok = true
  | .stored id status => s.Deserves id status
  | .idle | .forwarded _ | .finished _ => True

/-- The verdict an event announces is deserved. -/
def State.Right (s : State rt) : Event rt → Prop
  | .crawlFinish id _ _ _ status => s.Deserves id status
  | _ => True

structure Judged (s : State rt) (phases : List Phase) : Prop where
  early : ∀ id, id ∉ s.ids ∨ id ∈ s.messages.filterMap carried → ¬ s.StoreSucceeded id
  agrees : List.Forall₂ (fun w phase => s.Agrees w.component phase) s.work phases
  right : ∀ e ∈ s.events, s.Right e
  ordered : s.events.Pairwise (fun e e' => ∀ id, e.finished? = some id → ¬ e'.Processes id)

theorem judged_initial : Judged (State.initial : State rt) [] := by
  refine ⟨?_, .nil, ?_, .nil⟩
  · rintro id - ⟨e, he, -⟩
    exact absurd he List.not_mem_nil
  · exact fun e he => absurd he List.not_mem_nil

variable {w : Work rt} {s s' t : State rt} {phase next : Phase} {phases phases' : List Phase} {save : Save}
  {i : Nat} {id : String}

theorem succeeded_tell {event : Event rt} :
    (s.tell event).StoreSucceeded id ↔ s.StoreSucceeded id ∨ event.Succeeds id := by
  simp [State.StoreSucceeded, State.tell, or_and_right, exists_or]

theorem Event.Aside.not_succeeds {c : ComponentName} {event : Event rt} (h : event.Aside c phase) :
    ¬ event.Succeeds id := by
  intro hs
  cases event with
  | componentFinish component p =>
    cases component with
    | storage =>
      obtain ⟨rfl, ⟨-, hnone⟩ | ⟨hne, -⟩⟩ := h
      · rw [show p.crawlId = some id from hs] at hnone
        cases hnone
      · exact hne rfl
    | _ => exact hs
  | _ => exact hs

theorem Event.Judges.succeeds_iff {c : ComponentName} {ok : Bool} {event : Event rt} (h : event.Judges c id ok)
    (id' : String) : event.Succeeds id' ↔ id = id' ∧ c = .storage ∧ ok = true := by
  cases event with
  | componentFinish component p =>
    obtain ⟨rfl, hid, rfl⟩ := h
    cases component with
    | storage =>
      change p.crawlId = some id' ↔ _
      simp [hid]
    | _ => simp [Event.Succeeds]
  | componentError component p e =>
    obtain rfl : ok = false := h
    simp [Event.Succeeds]
  | _ => exact h.elim

/-- The Storage succeeds where it judges a crawl it holds. -/
theorem Beat.succeeded_iff (h : Beat w s phase s' save next) (id : String) :
    s'.StoreSucceeded id ↔ s.StoreSucceeded id ∨ phase = .holding id ∧ next = .judged id true ∧ w.component = .storage := by
  have hsame {phase : Phase} (hne : ∀ id, phase ≠ .holding id) : s.StoreSucceeded id ↔ s.StoreSucceeded id ∨
      phase = .holding id ∧ next = .judged id true ∧ w.component = .storage := by simp [hne id]
  have hkept {phase : Phase} : s.StoreSucceeded id ↔ s.StoreSucceeded id ∨
      phase = .holding id ∧ phase = .judged id true ∧ w.component = .storage := by
    constructor
    · exact .inl
    · rintro (hs | ⟨rfl, himpossible, -⟩)
      · exact hs
      · cases himpossible
  cases h with
  | told haside =>
    rw [succeeded_tell]
    simp only [haside.not_succeeds, or_false]
    exact hkept
  | judged hjudges =>
    rw [succeeded_tell, hjudges.succeeds_iff]
    simp only [Phase.holding.injEq, Phase.judged.injEq]
    grind
  | announced correlationId url =>
    rw [succeeded_tell]
    simp [Event.Succeeds]
  | ended correlationId url =>
    rw [succeeded_tell]
    simp [Event.Succeeds]
  | registered url =>
    unfold State.register
    split <;> exact hkept
  | concluded landed _ _ _ _ => cases landed <;> exact hsame (by simp)
  | recorded landed _ _ _ => cases landed <;> exact hsame (by simp)
  | passed _ _ _ => simp [State.StoreSucceeded, State.send]
  | begun hash _ _ => exact hsame (by simp)
  | _ => exact hkept

/-- What the owner of another crawl knows is not affected. -/
theorem State.Agrees.congr {c : ComponentName} (h : s.Agrees c phase)
    (hsame : ∀ id, phase.owned? = some id → (s'.StoreSucceeded id ↔ s.StoreSucceeded id)) : s'.Agrees c phase := by
  cases phase with
  | begun id => exact fun hs => h ((hsame id rfl).mp hs)
  | holding id => exact fun hs => h ((hsame id rfl).mp hs)
  | judged id ok => exact (hsame id rfl).trans h
  | stored id status => exact ⟨h.1, h.2.trans (hsame id rfl).symm⟩
  | _ => trivial

/-- A handler that beats knows about its crawl what the events say. -/
theorem Beat.agrees (h : Beat w s phase s' save next) (hearly : ∀ id, id ∉ s.ids → ¬ s.StoreSucceeded id)
    (hagrees : s.Agrees w.component phase) : s'.Agrees w.component next := by
  have hiff := h.succeeded_iff
  have hsame (hne : ∀ id, next ≠ .judged id true) (id : String) : s'.StoreSucceeded id ↔ s.StoreSucceeded id := by
    rw [hiff]
    simp [hne id]
  have hkept (he : next = phase) : s'.Agrees w.component next := by
    rw [he]
    apply hagrees.congr
    intro id _
    rw [hiff, he]
    constructor
    · rintro (hs | ⟨rfl, himpossible, -⟩)
      · exact hs
      · cases himpossible
    · exact .inl
  cases h with
  | judged hjudges =>
    change State.StoreSucceeded _ _ ↔ _
    rw [hiff]
    simp only [State.Agrees] at hagrees
    simp only [hagrees, false_or, Phase.judged.injEq, true_and]
    exact and_comm
  | announced correlationId url => exact fun hs => hagrees ((hsame nofun _).mp hs)
  | begun hash hfresh _ => exact fun hs => hearly _ hfresh ((hsame nofun _).mp hs)
  | concluded landed hawaited hcomponent hstatus hterminal =>
    refine ⟨hterminal.1, hterminal.2.trans ?_⟩
    rw [hsame nofun]
    exact hagrees.symm
  | ended correlationId url => trivial
  | passed _ _ _ => trivial
  | recorded landed _ _ _ => trivial
  | _ => exact hkept rfl

/-- Events of a beat: at most one new, which is right and not too late. -/
theorem Beat.events (h : Beat w s phase s' save next) (hagrees : s.Agrees w.component phase) :
    s'.events = s.events ∨ ∃ event : Event rt, s'.events = s.events ++ [event] ∧ s'.Right event ∧
      ∀ id, event.Processes id → phase.owned? = some id := by
  cases h with
  | told haside =>
    rename_i event
    refine .inr ⟨event, rfl, ?_, ?_⟩
    · cases event <;> trivial
    · intro id hprocesses
      cases event with
      | componentStart c p =>
        have hp : p.crawlId = some id := hprocesses
        obtain ⟨-, ⟨-, hnone⟩ | ⟨id', rfl, hid⟩⟩ := haside
        · rw [hp] at hnone
          cases hnone
        · exact (hid.symm.trans hp)
      | _ => exact hprocesses.elim
  | judged hjudges =>
    rename_i id ok event
    refine .inr ⟨event, rfl, ?_, ?_⟩
    · cases event <;> trivial
    · intro id' hprocesses
      cases event <;> first | exact hprocesses.elim | exact hjudges.elim
  | announced correlationId url => exact .inr ⟨_, rfl, trivial, fun _ hprocesses => hprocesses.elim⟩
  | ended correlationId url =>
    refine .inr ⟨_, rfl, ⟨hagrees.1, hagrees.2.trans ?_⟩, fun _ hprocesses => hprocesses.elim⟩
    rw [succeeded_tell]
    simp [Event.Succeeds]
  | registered url =>
    unfold State.register
    split <;> exact .inl rfl
  | concluded landed _ _ _ _ => cases landed <;> exact .inl rfl
  | recorded landed _ _ _ => cases landed <;> exact .inl rfl
  | _ => exact .inl rfl

/-- A handler that beats leaves what is known of all crawls right. -/
theorem Judged.beat (h : Judged s phases) (howned : Owned s phases) (hw : s.work[i]? = some w)
    (hphase : phases[i]? = some phase) (hbeat : Beat w s phase s' save next) {w' : Work rt}
    (hcomponent : w'.component = w.component) :
    Judged { s' with work := s.work.set i w' } (phases.set i next) := by
  obtain ⟨phase', hphase', hagrees⟩ := Positions.forall₂_getElem? h.agrees hw
  obtain rfl := Option.some.inj (hphase.symm.trans hphase')
  have halone {id : String} (hid : phase.owned? = some id) := howned.alone hphase hid
  have hiff := hbeat.succeeded_iff
  constructor
  · intro id hid hs
    have hold : (id ∉ s.ids ∨ id ∈ s.messages.filterMap Pipeline.carried) ∨ phase = .holding id ∧ next = .forwarded id := by
      cases hid with
      | inl hunknown =>
        obtain ⟨l, hids⟩ := hbeat.ids
        exact .inl (.inl fun hknown => hunknown (by rw [hids]; exact List.mem_append_left _ hknown))
      | inr hcarried =>
        obtain ⟨m, hm, hmid⟩ := List.mem_filterMap.mp hcarried
        cases hbeat.carried m hm id hmid with
        | inl hold => exact .inl (.inr (List.mem_filterMap.mpr ⟨m, hold, hmid⟩))
        | inr hforwarded => exact .inr ⟨hforwarded.1, hforwarded.2.1⟩
    cases (hiff id).mp hs with
    | inl hs =>
      cases hold with
      | inl hold => exact h.early id hold hs
      | inr hforwarded =>
        obtain ⟨rfl, -⟩ := hforwarded
        exact hagrees hs
    | inr hheld =>
      obtain ⟨rfl, rfl, -⟩ := hheld
      obtain (hunknown | hcarried) | ⟨-, himpossible⟩ := hold
      · exact hunknown (howned.known_of_phase hphase rfl)
      · exact (halone rfl).2.1 hcarried
      · cases himpossible
  · apply Positions.forall₂_set_mono h.agrees
    · rw [hcomponent]
      exact hbeat.agrees (fun id hid => h.early id (.inl hid)) hagrees
    · intro j x y hj hx hy hxy
      apply hxy.congr
      intro id hid
      refine (hiff id).trans ?_
      constructor
      · rintro (hs | ⟨rfl, -⟩)
        · exact hs
        · exact absurd hid ((halone rfl).1 j y hj hy)
      · exact .inl
  · intro e he
    have hkept (e : Event rt) (he : e ∈ s.events) : s'.Right e := by
      cases e with
      | crawlFinish id c correlationId url status =>
        have hright := h.right _ he
        have hfinished : id ∈ s.events.filterMap Event.finished? := List.mem_filterMap.mpr ⟨_, he, rfl⟩
        refine ⟨hright.1, hright.2.trans ?_⟩
        rw [hiff]
        constructor
        · exact .inl
        · rintro (hs | ⟨rfl, -⟩)
          · exact hs
          · exact absurd hfinished (halone rfl).2.2
      | _ => trivial
    cases hbeat.events hagrees with
    | inl hevents => exact hkept e (by rw [← hevents]; exact he)
    | inr hnew =>
      obtain ⟨event, hevents, hright, -⟩ := hnew
      have he : e ∈ s.events ++ [event] := hevents ▸ he
      cases List.mem_append.mp he with
      | inl he => exact hkept e he
      | inr he => rw [List.mem_singleton.mp he]; exact hright
  · change s'.events.Pairwise _
    cases hbeat.events hagrees with
    | inl hevents => rw [hevents]; exact h.ordered
    | inr hnew =>
      obtain ⟨event, hevents, -, hprocesses⟩ := hnew
      rw [hevents, List.pairwise_append]
      refine ⟨h.ordered, List.pairwise_singleton .., ?_⟩
      intro e he e' he' id hfinished hid
      rw [List.mem_singleton.mp he'] at hid
      exact (halone (hprocesses id hid)).2.2 (List.mem_filterMap.mpr ⟨e, he, hfinished⟩)

/-- A step leaves what is known of all crawls right. -/
theorem Judged.step (h : Judged s phases) (howned : Owned s phases) {a : Action rt}
    (hchange : Change s phases a t phases') :
    Judged t phases' := by
  cases hchange with
  | seeded hx =>
    refine ⟨?_, h.agrees, h.right, h.ordered⟩
    intro id hid
    rw [filterMap_send, hx, Option.toList_none, List.append_nil] at hid
    exact h.early id hid
  | pulled hw => exact ⟨h.early, Positions.forall₂_concat h.agrees trivial, h.right, h.ordered⟩
  | delivered hm hw hphase hcases =>
    refine ⟨?_, ?_, h.right, h.ordered⟩
    · intro id hid
      apply h.early id
      exact hid.imp_right (fun hid => ((List.eraseIdx_sublist ..).filterMap _).subset hid)
    · apply Positions.forall₂_concat h.agrees
      obtain rfl | ⟨id, rfl⟩ := hcases
      · trivial
      · exact h.early id (.inr (List.mem_filterMap.mpr ⟨_, List.mem_of_getElem? hm, hphase.symm⟩))
  | beaten hw hphase hbeat hcomponent => exact h.beat howned hw hphase hbeat hcomponent

/-! ## Whole runs -/

/-- The handlers of a crawl have run to completion and its messages have been
delivered. -/
structure State.Completed (s : State rt) (id : String) : Prop where
  handlers : ∀ w ∈ s.work, w.crawl = some id → ∃ a, w.program = .ret a
  messages : ∀ m ∈ s.messages, carried m ≠ some id

/-- One finish, with a status the crawl deserves, after which no component
starts on the crawl, and of the last component that had it. -/
def State.FinishedOnce (s : State rt) (id : String) : Prop :=
  ∃ earlier c correlationId url status later,
    s.events = earlier ++ .crawlFinish id c correlationId url status :: later ∧
      (∀ e ∈ earlier ++ later, e.finished? ≠ some id) ∧ s.Deserves id status ∧ (∀ e ∈ later, ¬ e.Processes id) ∧
      ∀ w ∈ s.work, w.crawl = some id → w.component.stage ≤ c.stage

/-- The handlers, the events and the places of all that had a crawl. -/
structure Followed (s : State rt) (phases : List Phase) : Prop where
  owned : Owned s phases
  judged : Judged s phases
  staged : Staged s phases

theorem Followed.step (h : Followed s phases) {a : Action rt} (hfresh : s.Fresh a) (hstep : s.step a = some t) :
    ∃ phases', Change s phases a t phases' ∧ Followed t phases' := by
  obtain ⟨phases', hchange, howned⟩ := h.owned.step hfresh hstep
  exact ⟨phases', hchange, howned, h.judged.step h.owned hchange, h.staged.step h.owned hchange⟩

theorem followed_reached (h : Reaches State.step State.Fresh (State.initial : State rt) s) :
    ∃ phases, Followed s phases := by
  apply h.invariant (fun s => ∃ phases, Followed s phases)
  · exact ⟨[], owned_initial, judged_initial, staged_initial⟩
  · rintro s a t ⟨phases, hs⟩ hfresh hstep
    obtain ⟨phases', -, ht⟩ := hs.step hfresh hstep
    exact ⟨phases', ht⟩

/-- A handler that has run to completion owns no crawl. -/
theorem Held.settled (h : Held w phase) {a : Except Raised Unit × Payload rt} (hw : w.program = .ret a) :
    phase.owned? = none := by
  have hkeeps := h.keeps
  rw [hw] at hkeeps
  obtain rfl | ⟨id, rfl⟩ := hkeeps <;> rfl

/-- A started crawl whose handlers and messages are all done has finished. -/
theorem Owned.finished (h : Owned s phases) (hid : id ∈ owners phases s) (hcompleted : s.Completed id) :
    id ∈ s.events.filterMap Event.finished? := by
  rw [owners, List.mem_append, List.mem_append] at hid
  obtain (hphase | hmessage) | hevent := hid
  · obtain ⟨phase, hphase, hid⟩ := List.mem_filterMap.mp hphase
    obtain ⟨j, hj⟩ := List.mem_iff_getElem?.mp hphase
    obtain ⟨w, hw, hheld⟩ := Positions.forall₂_getElem? h.held.flip hj
    have hcrawl : w.crawl = some id := by rw [hheld.crawl, crawl?_eq, hid, Option.some_or]
    obtain ⟨a, ha⟩ := hcompleted.handlers w (List.mem_of_getElem? hw) hcrawl
    rw [hheld.settled ha] at hid
    cases hid
  · obtain ⟨m, hm, hid⟩ := List.mem_filterMap.mp hmessage
    exact absurd hid (hcompleted.messages m hm)
  · exact hevent

/-- In every run, a started crawl finishes exactly once: it has when its
handlers and messages are done, and it has not twice at any time. -/
theorem crawl_finishes_once (h : Reaches State.step State.Fresh (State.initial : State rt) s)
    (hstart : id ∈ s.events.filterMap Event.started?) (hend : s.Completed id ∨ id ∈ s.events.filterMap Event.finished?) : s.FinishedOnce id := by
  obtain ⟨phases, howned, hjudged, hstaged⟩ := followed_reached h
  have hfinished : id ∈ s.events.filterMap Event.finished? := by
    cases hend with
    | inl hcompleted => exact howned.finished (howned.started id hstart) hcompleted
    | inr hfinished => exact hfinished
  obtain ⟨event, hevent, heid⟩ := List.mem_filterMap.mp hfinished
  cases event with
  | crawlFinish id' c correlationId url status =>
    obtain rfl := Option.some.inj heid
    obtain ⟨earlier, later, hevents⟩ := List.append_of_mem hevent
    refine ⟨earlier, c, correlationId, url, status, later, hevents, ?_, hjudged.right _ hevent, ?_, ?_⟩
    · have hnodup : (s.events.filterMap Event.finished?).Nodup := howned.unique.sublist (List.sublist_append_right ..)
      rw [hevents, List.filterMap_append, List.filterMap_cons_some heid, List.perm_middle.nodup_iff,
        List.nodup_cons, ← List.filterMap_append] at hnodup
      exact fun e he hfinish => hnodup.1 (List.mem_filterMap.mpr ⟨e, he, hfinish⟩)
    · have hordered := hjudged.ordered
      rw [hevents, List.pairwise_append, List.pairwise_cons] at hordered
      exact fun e he => hordered.2.1.1 e he _ rfl
    · intro w hw hcrawl
      obtain ⟨j, hj⟩ := List.mem_iff_getElem?.mp hw
      obtain ⟨phase, hphase, hheld⟩ := Positions.forall₂_getElem? howned.held hj
      rw [hheld.crawl] at hcrawl
      have hpast : phase.past? = some id' := by
        have hnone : phase.owned? ≠ some id' := by
          intro hown
          exact (howned.alone hphase hown).2.2 hfinished
        cases phase <;> first | exact hcrawl | exact absurd hcrawl hnone
      have hmem : (w, phase) ∈ s.work.zip phases :=
        List.mem_iff_getElem?.mpr ⟨j, List.getElem?_zip_eq_some.mpr ⟨hj, hphase⟩⟩
      exact (hstaged.finished _ hmem _ _ _ _ _ hevent hpast).1
  | _ => cases heid

/-! A page that is downloaded, parsed and stored. -/

/-- The test of a step with a new crawl. -/
def State.freshTest (s : State rt) : Action rt → Bool
  | .answer i _ _ =>
    match s.awaited i with
    | some (.startCrawl _ crawl) => crawl.id ∉ s.ids
    | _ => true
  | _ => true

theorem fresh_of_test {a : Action rt} (h : s.freshTest a = true) : s.Fresh a := by
  cases a with
  | answer i reply applied =>
    intro hash crawl hawaited
    rw [State.freshTest, hawaited] at h
    exact of_decide_eq_true h
  | _ => trivial

def Work.ended (w : Work rt) : Bool :=
  match w.program with
  | .ret _ => true
  | .await _ _ => false

theorem ended_iff : w.ended = true ↔ ∃ a, w.program = .ret a := by
  unfold Work.ended
  cases w.program <;> simp

def State.completedTest (s : State rt) (id : String) : Bool :=
  s.work.all (fun w => w.crawl ≠ some id || w.ended) && s.messages.all (fun m => carried m ≠ some id)

theorem completed_of_test (h : s.completedTest id = true) : s.Completed id := by
  simp only [State.completedTest, Bool.and_eq_true, List.all_eq_true, Bool.or_eq_true, decide_eq_true_eq] at h
  refine ⟨?_, h.2⟩
  intro w hw hcrawl
  exact ended_iff.mp ((h.1 w hw).resolve_left (fun hne => hne hcrawl))

end

/-- Answers to the handler at a position. -/
def exampleAnswers (i n : Nat) : List (Action asciiRuntime) := List.replicate n (.answer i exampleReply true)

/-- The Frontier registers the URL, and the Downloader publishes its page. -/
def downloadedPage : List (Action asciiRuntime) :=
  [.seed siteURL exampleDefaults, .deliver 0 exampleDefaults] ++ exampleAnswers 0 19 ++ [.pull 0] ++ exampleAnswers 1 15

def storedPage : List (Action asciiRuntime) :=
  downloadedPage ++ exampleAnswers 1 3 ++ [.deliver 0 exampleDefaults] ++ exampleAnswers 2 10 ++
    [.deliver 0 exampleDefaults] ++ exampleAnswers 3 7

def pageStored (s : State asciiRuntime) : Bool :=
  decide ("0c" ∈ s.events.filterMap Event.started?) && s.completedTest "0c"

theorem crawl_finishes_once_page : ∃ s : State asciiRuntime, s.FinishedOnce "0c" := by
  obtain ⟨s, hs, htest⟩ := exists_reaches State.step State.initial State.freshTest (fun _ _ => fresh_of_test) storedPage
    pageStored (by decide +kernel)
  rw [pageStored, Bool.and_eq_true, decide_eq_true_eq] at htest
  exact ⟨s, crawl_finishes_once hs htest.1 (.inl (completed_of_test htest.2))⟩

end Linksurf.Pipeline
