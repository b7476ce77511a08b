import Linksurf.Beats
import Linksurf.Positions

/-!
# The owner of a crawl

A crawl is owned by the handler that has it, by the message that carries it, or
by the event that it finished. A handler passes it on by publishing, so there
is one owner from the start of the crawl on.
-/
namespace Linksurf.Pipeline

open Coroutine
open Dicts (Dict)
open Json

/-- The crawl a handler in a phase owns. -/
def Phase.owned? : Phase → Option String
  | .begun id | .holding id | .judged id _ | .stored id _ => some id
  | .idle | .forwarded _ | .finished _ => none

/-- The `crawl_id` of a message. -/
def carried (m : Topic × Plain) : Option String :=
  (asObject m.2).bind (fun members => (members.lookup "crawl_id").bind asString)

section

variable {rt : Runtime}

def Event.started? : Event rt → Option String
  | .crawlStart id _ _ _ => some id
  | _ => none

def Event.finished? : Event rt → Option String
  | .crawlFinish id _ _ _ _ => some id
  | _ => none

def owners (phases : List Phase) (s : State rt) : List String :=
  phases.filterMap Phase.owned? ++ s.messages.filterMap carried ++ s.events.filterMap Event.finished?

/-! ## Messages -/

/-- A message for the Frontier without a crawl, or one that carries a crawl on. -/
inductive Addressed (rt : Runtime) : Topic × Plain → Prop
  | new {p : Payload rt} : (∀ c ∈ p.content, c.Loaded) → p.crawlId = none → Addressed rt (.process, p.toDict)
  | passed {p : Payload rt} {id : String} {topic : Topic} : (∀ c ∈ p.content, c.Loaded) →
      topic = .parse ∨ topic = .store → p.Carries id → Addressed rt (topic, p.toDict)

theorem carried_toDict (topic : Topic) (p : Payload rt) : carried (topic, p.toDict) = p.crawlId := by
  have hmembers : carried (topic, p.toDict) = asString (optional .str p.crawlId) := by
    rw [carried, Payload.toDict, asObject_object]
    rfl
  rw [hmembers]
  cases p.crawlId <;> rfl

/-- What a publish puts on the wire. -/
theorem sent_eq {p : Payload rt} {x : Plain} (h : throughJson p.toDict = some x) :
    ∃ q : Payload rt, (∀ c ∈ q.content, c.Loaded) ∧ q.crawlId = p.crawlId ∧ q.response = p.response ∧ x = q.toDict := by
  obtain ⟨content, metadata, hloaded, -, rfl⟩ := Payload.throughJson_toDict h
  exact ⟨{ p with content, metadata }, hloaded, rfl, rfl, rfl⟩

theorem addressed_new {p : Payload rt} {x : Plain} (hp : p.crawlId = none) (h : throughJson p.toDict = some x) :
    Addressed rt (.process, x) ∧ carried (.process, x) = none := by
  obtain ⟨q, hloaded, hcrawl, -, rfl⟩ := sent_eq h
  exact ⟨.new hloaded (hcrawl.trans hp), (carried_toDict _ q).trans (hcrawl.trans hp)⟩

theorem addressed_passed {p : Payload rt} {id : String} {topic : Topic} {x : Plain} (htopic : topic = .parse ∨ topic = .store)
    (hp : p.Carries id) (h : throughJson p.toDict = some x) :
    Addressed rt (topic, x) ∧ carried (topic, x) = some id := by
  obtain ⟨q, hloaded, hcrawl, hresponse, rfl⟩ := sent_eq h
  exact ⟨.passed hloaded htopic ⟨hcrawl.trans hp.crawl, by rw [hresponse, hp.direct]⟩,
    (carried_toDict _ q).trans (hcrawl.trans hp.crawl)⟩

theorem nextTopic_cases {c : ComponentName} {topic : Topic} (h : c.nextTopic = some topic) :
    topic = .parse ∨ topic = .store := by
  cases c <;> cases h
  · exact .inl rfl
  · exact .inr rfl

/-- A consumer is given what the message carries. -/
theorem Addressed.given {m : Topic × Plain} (hm : Addressed rt m) {defaults : Defaults} {q : Payload rt}
    (hq : Payload.fromDict rt defaults m.2 = some q) :
    ∃ phase, Given q m.1.consumer phase ∧ phase.owned? = carried m ∧ phase.crawl? = q.crawlId ∧ phase.Unsaved ∧
      q.published = false := by
  cases hm with
  | new hloaded hp =>
    rw [Payload.fromDict_toDict defaults hloaded] at hq
    obtain ⟨url, -, rfl⟩ := Option.map_eq_some_iff.mp hq
    exact ⟨.idle, .new (.inl rfl) hp, ((carried_toDict _ _).trans hp).symm, hp.symm, trivial, rfl⟩
  | passed hloaded htopic hp =>
    rw [Payload.fromDict_toDict defaults hloaded] at hq
    obtain ⟨url, -, rfl⟩ := Option.map_eq_some_iff.mp hq
    refine ⟨.holding _, .passed ?_ ⟨hp.crawl, hp.direct⟩, ((carried_toDict _ _).trans hp.crawl).symm, hp.crawl.symm, trivial, rfl⟩
    obtain rfl | rfl := htopic
    · exact .inl rfl
    · exact .inr rfl

/-! ## Steps -/

/-- What a step is to the handlers and their phases. -/
inductive Change (s : State rt) (phases : List Phase) : Action rt → State rt → List Phase → Prop
  | seeded {url : BuiltURL rt} {defaults : Defaults} {x : Plain} : carried (.process, x) = none →
      Change s phases (.seed url defaults) (s.send .process x) phases
  | pulled {i : Nat} {w : Work rt} : w.component = .downloader →
      Change s phases (.pull i) { s with work := s.work ++ [w] } (phases ++ [.idle])
  | delivered {i : Nat} {defaults : Defaults} {m : Topic × Plain} {w : Work rt} {phase : Phase} :
      s.messages[i]? = some m → w.component = m.1.consumer → phase.owned? = carried m →
      (phase = .idle ∨ ∃ id, phase = .holding id) →
      Change s phases (.deliver i defaults) { s with messages := s.messages.eraseIdx i, work := s.work ++ [w] }
        (phases ++ [phase])
  | beaten {i : Nat} {reply : (call : Call rt) → call.Reply} {applied : Bool} {w w' : Work rt} {phase next : Phase}
      {s' : State rt} : s.work[i]? = some w → phases[i]? = some phase → Beat w s phase s' w'.save next →
      w'.component = w.component →
      Change s phases (.answer i reply applied) { s' with work := s.work.set i w' } (phases.set i next)

theorem Beat.messages {w : Work rt} {s s' : State rt} {phase next : Phase} {save : Save}
    (h : Beat w s phase s' save next) (haddressed : ∀ m ∈ s.messages, Addressed rt m) :
    ∀ m ∈ s'.messages, Addressed rt m := by
  have hsent {topic : Topic} {x : Plain} (hx : Addressed rt (topic, x)) : ∀ m ∈ (s.send topic x).messages, Addressed rt m := by
    intro m hm
    cases List.mem_append.mp hm with
    | inl hm => exact haddressed m hm
    | inr hm => rw [List.mem_singleton.mp hm]; exact hx
  cases h with
  | sent hp hx => exact hsent (addressed_new hp hx).1
  | passed htopic hp hx => exact hsent (addressed_passed (nextTopic_cases htopic) hp hx).1
  | registered url =>
    unfold State.register
    split <;> exact haddressed
  | concluded landed _ _ _ _ => cases landed <;> exact haddressed
  | recorded landed _ _ _ => cases landed <;> exact haddressed
  | _ => exact haddressed

theorem held_start {c : ComponentName} {p : Payload rt} {phase : Phase} (h : Given p c phase) (hp : p.published = false)
    (hcrawl : p.crawlId = phase.crawl?) (hdue : phase.Unsaved) : Held (Work.start c p) phase :=
  ⟨keeps_handler h hp, hcrawl, fun _ => hdue, fun _ => rfl⟩

/-- Every step is one of the cases, and keeps the handlers to the rules. -/
theorem step_change {s t : State rt} {phases : List Phase} {a : Action rt} (hheld : List.Forall₂ Held s.work phases)
    (haddressed : ∀ m ∈ s.messages, Addressed rt m) (hfresh : s.Fresh a) (h : s.step a = some t) :
    ∃ phases', Change s phases a t phases' ∧ List.Forall₂ Held t.work phases' ∧ ∀ m ∈ t.messages, Addressed rt m := by
  cases a with
  | seed url defaults =>
    rw [State.step] at h
    obtain ⟨x, hx, rfl⟩ := Option.map_eq_some_iff.mp h
    obtain ⟨hnew, hcarried⟩ := addressed_new rfl hx
    refine ⟨phases, .seeded hcarried, hheld, ?_⟩
    intro m hm
    cases List.mem_append.mp hm with
    | inl hm => exact haddressed m hm
    | inr hm => rw [List.mem_singleton.mp hm]; exact hnew
  | pull i =>
    obtain ⟨url, -, h⟩ := Option.bind_eq_some_iff.mp h
    obtain ⟨p, hp, h⟩ := Option.bind_eq_some_iff.mp h
    obtain ⟨built, -, rfl⟩ := Option.map_eq_some_iff.mp hp
    cases h
    refine ⟨phases ++ [.idle], .pulled rfl, ?_, haddressed⟩
    exact Positions.forall₂_concat hheld (held_start (.new (.inr rfl) rfl) rfl rfl trivial)
  | deliver i defaults =>
    obtain ⟨m, hm, h⟩ := Option.bind_eq_some_iff.mp h
    obtain ⟨p, hp, h⟩ := Option.bind_eq_some_iff.mp h
    cases h
    obtain ⟨phase, hgiven, howned, hcrawl, hdue, hpublished⟩ := (haddressed m (List.mem_of_getElem? hm)).given hp
    have hphase : phase = .idle ∨ ∃ id, phase = .holding id := by
      cases hgiven with
      | new _ _ => exact .inl rfl
      | passed _ _ => exact .inr ⟨_, rfl⟩
    refine ⟨phases ++ [phase], .delivered hm rfl howned hphase, ?_, ?_⟩
    · exact Positions.forall₂_concat hheld (held_start hgiven hpublished hcrawl.symm hdue)
    · exact fun m' hm' => haddressed m' (List.mem_of_mem_eraseIdx hm')
  | answer i reply applied =>
    obtain ⟨w, hw, -⟩ := Option.bind_eq_some_iff.mp h
    obtain ⟨phase, hphase, hw'⟩ := Positions.forall₂_getElem? hheld hw
    obtain ⟨s', w', next, hbeat, hnext, hcomponent, rfl⟩ := answer_beat h hfresh hw hw'
    exact ⟨phases.set i next, .beaten hw hphase hbeat hcomponent, Positions.forall₂_set hheld hnext,
      hbeat.messages haddressed⟩

/-! ## One owner -/

/-- One owner for every crawl. -/
structure Owned (s : State rt) (phases : List Phase) : Prop where
  held : List.Forall₂ Held s.work phases
  addressed : ∀ m ∈ s.messages, Addressed rt m
  unique : (owners phases s).Nodup
  known : ∀ id ∈ owners phases s, id ∈ s.ids
  started : ∀ id ∈ s.events.filterMap Event.started?, id ∈ owners phases s

theorem owned_initial : Owned (State.initial : State rt) [] :=
  ⟨.nil, nofun, List.nodup_nil, nofun, nofun⟩

theorem filterMap_tell (s : State rt) (event : Event rt) {f : Event rt → Option String} :
    (s.tell event).events.filterMap f = s.events.filterMap f ++ (f event).toList := Positions.filterMap_concat f _ _

theorem filterMap_send (s : State rt) (topic : Topic) (x : Plain) : (s.send topic x).messages.filterMap carried =
    s.messages.filterMap carried ++ (carried (topic, x)).toList := Positions.filterMap_concat carried _ _

theorem Event.Aside.finished {c : ComponentName} {phase : Phase} {event : Event rt} (h : event.Aside c phase) :
    event.finished? = none ∧ event.started? = none := by
  cases event <;> first | exact ⟨rfl, rfl⟩ | exact h.elim

theorem Event.Judges.finished {c : ComponentName} {id : String} {ok : Bool} {event : Event rt}
    (h : event.Judges c id ok) : event.finished? = none ∧ event.started? = none := by
  cases event <;> first | exact ⟨rfl, rfl⟩ | exact h.elim

/-- What a handler, the messages and the events own together. -/
def owns (phase : Phase) (s : State rt) : List String :=
  phase.owned?.toList ++ (s.messages.filterMap carried ++ s.events.filterMap Event.finished?)

variable {w : Work rt} {s s' t : State rt} {phase next : Phase} {phases phases' : List Phase} {save : Save}

/-- A beat passes a crawl on, or begins a new one. -/
theorem Beat.owns (h : Beat w s phase s' save next) :
    (Pipeline.owns next s').Perm (Pipeline.owns phase s) ∧ (∃ l, s'.ids = s.ids ++ l) ∨
      ∃ id, id ∉ s.ids ∧ (Pipeline.owns next s').Perm (id :: Pipeline.owns phase s) ∧ s'.ids = s.ids ++ [id] := by
  have hnone : ∃ l, s.ids = s.ids ++ l := ⟨[], by simp⟩
  cases h with
  | quiet => exact .inl ⟨.refl _, hnone⟩
  | registered url =>
    unfold State.register
    split <;> exact .inl ⟨.refl _, hnone⟩
  | told haside =>
    refine .inl ⟨?_, hnone⟩
    rw [Pipeline.owns, filterMap_tell, haside.finished.1, Option.toList_none, List.append_nil]
    exact .refl _
  | judged hjudges =>
    refine .inl ⟨?_, hnone⟩
    rw [Pipeline.owns, filterMap_tell, hjudges.finished.1, Option.toList_none, List.append_nil]
    exact .refl _
  | announced correlationId url =>
    refine .inl ⟨?_, hnone⟩
    rw [Pipeline.owns, filterMap_tell]
    simp [Event.finished?, Pipeline.owns, Phase.owned?, State.tell]
  | ended correlationId url =>
    refine .inl ⟨?_, hnone⟩
    rw [Pipeline.owns, filterMap_tell]
    simp only [Event.finished?, Pipeline.owns, Phase.owned?, State.tell, Option.toList_none, Option.toList_some,
      List.nil_append, ← List.append_assoc]
    exact List.perm_append_singleton ..
  | sent hp hx =>
    refine .inl ⟨?_, hnone⟩
    rw [Pipeline.owns, filterMap_send, (addressed_new hp hx).2]
    simp [Pipeline.owns, State.send]
  | passed htopic hp hx =>
    refine .inl ⟨?_, hnone⟩
    rw [Pipeline.owns, filterMap_send, (addressed_passed (nextTopic_cases htopic) hp hx).2]
    simp only [Pipeline.owns, Phase.owned?, State.send, Option.toList_none, Option.toList_some, List.nil_append,
      List.append_assoc]
    exact List.perm_middle
  | refused _ => exact .inl ⟨.refl _, _, rfl⟩
  | unanswered hash _ _ => exact .inl ⟨.refl _, _, rfl⟩
  | begun hash hfresh _ => exact .inr ⟨_, hfresh, .refl _, rfl⟩
  | concluded landed _ _ _ _ => cases landed <;> exact .inl ⟨.refl _, hnone⟩
  | recorded landed _ _ _ => cases landed <;> exact .inl ⟨.refl _, hnone⟩

theorem owners_perm {l : List Phase} {i : Nat} (h : l[i]? = some phase) (s : State rt) :
    (owners l s).Perm ((l.eraseIdx i).filterMap Phase.owned? ++ Pipeline.owns phase s) := by
  have hphases := Positions.filterMap_perm Phase.owned? h
  rw [owners, Pipeline.owns, List.append_assoc, ← List.append_assoc (List.filterMap _ (l.eraseIdx i))]
  exact (hphases.trans List.perm_append_comm).append_right _

/-- A step leaves every crawl with its owner, or begins one. -/
theorem Change.owners {a : Action rt} (h : Change s phases a t phases') :
    (owners phases' t).Perm (owners phases s) ∧ (∃ l, t.ids = s.ids ++ l) ∨
      ∃ id, id ∉ s.ids ∧ (Pipeline.owners phases' t).Perm (id :: Pipeline.owners phases s) ∧ t.ids = s.ids ++ [id] := by
  have hnone : ∃ l, s.ids = s.ids ++ l := ⟨[], by simp⟩
  cases h with
  | seeded hx =>
    refine .inl ⟨?_, hnone⟩
    rw [Pipeline.owners, filterMap_send, hx]
    simp [Pipeline.owners, State.send]
  | pulled hw =>
    refine .inl ⟨?_, hnone⟩
    rw [Pipeline.owners, Positions.filterMap_concat]
    simp [Pipeline.owners, Phase.owned?]
  | delivered hm hw howned hphase =>
    refine .inl ⟨?_, hnone⟩
    have hmessages := Positions.filterMap_perm carried hm
    rw [Pipeline.owners, Positions.filterMap_concat, howned, List.append_assoc (phases.filterMap _)]
    exact (hmessages.symm.append_left _).append_right _
  | beaten hw hphase hbeat hcomponent =>
    rename_i i reply applied w w' phase next s'
    have hset : (phases.set i next)[i]? = some next := by
      obtain ⟨hi, -⟩ := List.getElem?_eq_some_iff.mp hphase
      rw [List.getElem?_set_self hi]
    have hbefore := owners_perm hphase s
    have hafter := owners_perm hset { s' with work := s.work.set i w' }
    rw [List.eraseIdx_set_eq] at hafter
    cases hbeat.owns with
    | inl hsame => exact .inl ⟨hafter.trans ((hsame.1.append_left _).trans hbefore.symm), hsame.2⟩
    | inr hnew =>
      obtain ⟨id, hfresh, hperm, hids⟩ := hnew
      refine .inr ⟨id, hfresh, ?_, hids⟩
      exact hafter.trans ((hperm.append_left _).trans (List.perm_middle.trans (hbefore.symm.cons _)))

theorem Beat.started (h : Beat w s phase s' save next) :
    ∀ id ∈ s'.events.filterMap Event.started?, id ∈ s.events.filterMap Event.started? ∨ next.owned? = some id := by
  intro id hid
  cases h with
  | told haside =>
    rw [filterMap_tell, haside.finished.2, Option.toList_none, List.append_nil] at hid
    exact .inl hid
  | judged hjudges =>
    rw [filterMap_tell, hjudges.finished.2, Option.toList_none, List.append_nil] at hid
    exact .inl hid
  | announced correlationId url =>
    rw [filterMap_tell] at hid
    cases List.mem_append.mp hid with
    | inl hid => exact .inl hid
    | inr hid => rw [List.mem_singleton.mp hid]; exact .inr rfl
  | ended correlationId url =>
    rw [filterMap_tell] at hid
    exact .inl (by simpa [Event.started?] using hid)
  | registered url =>
    unfold State.register at hid
    split at hid <;> exact .inl hid
  | concluded landed _ _ _ _ => cases landed <;> exact .inl hid
  | recorded landed _ _ _ => cases landed <;> exact .inl hid
  | _ => exact .inl hid

theorem Change.started {a : Action rt} (h : Change s phases a t phases') :
    ∀ id ∈ t.events.filterMap Event.started?,
      id ∈ s.events.filterMap Event.started? ∨ id ∈ Pipeline.owners phases' t := by
  cases h with
  | beaten hw hphase hbeat hcomponent =>
    intro id hid
    cases hbeat.started id hid with
    | inl hold => exact .inl hold
    | inr howned =>
      rename_i i reply applied w w' phase next s'
      have hmem : next ∈ phases.set i next := List.mem_set (List.getElem?_eq_some_iff.mp hphase).1 next
      exact .inr (List.mem_append_left _ (List.mem_append_left _ (List.mem_filterMap.mpr ⟨next, hmem, howned⟩)))
  | _ => exact fun id hid => .inl hid

/-- A step keeps one owner for every crawl. -/
theorem Owned.step (h : Owned s phases) {a : Action rt} (hfresh : s.Fresh a) (hstep : s.step a = some t) :
    ∃ phases', Change s phases a t phases' ∧ Owned t phases' := by
  obtain ⟨phases', hchange, hheld, haddressed⟩ := step_change h.held h.addressed hfresh hstep
  refine ⟨phases', hchange, hheld, haddressed, ?_, ?_, ?_⟩
  · cases hchange.owners with
    | inl hsame => exact hsame.1.nodup_iff.mpr h.unique
    | inr hnew =>
      obtain ⟨id, hid, hperm, -⟩ := hnew
      exact hperm.nodup_iff.mpr (List.nodup_cons.mpr ⟨fun howned => hid (h.known id howned), h.unique⟩)
  · intro id hid
    cases hchange.owners with
    | inl hsame =>
      obtain ⟨hperm, l, hids⟩ := hsame
      rw [hids]
      exact List.mem_append_left _ (h.known id (hperm.mem_iff.mp hid))
    | inr hnew =>
      obtain ⟨new, -, hperm, hids⟩ := hnew
      rw [hids]
      cases List.mem_cons.mp (hperm.mem_iff.mp hid) with
      | inl he => exact List.mem_append_right _ (List.mem_singleton.mpr he)
      | inr hold => exact List.mem_append_left _ (h.known id hold)
  · intro id hid
    cases hchange.started id hid with
    | inr howned => exact howned
    | inl hold =>
      have howned := h.started id hold
      cases hchange.owners with
      | inl hsame => exact hsame.1.mem_iff.mpr howned
      | inr hnew =>
        obtain ⟨new, -, hperm, -⟩ := hnew
        exact hperm.mem_iff.mpr (List.mem_cons_of_mem _ howned)

/-- Nobody else has anything of an owned crawl. -/
theorem Owned.alone {i : Nat} {id : String} (h : Owned s phases) (hphase : phases[i]? = some phase) (howned : phase.owned? = some id) :
    (∀ j phase', j ≠ i → phases[j]? = some phase' → phase'.owned? ≠ some id) ∧
      id ∉ s.messages.filterMap carried ∧ id ∉ s.events.filterMap Event.finished? := by
  have hunique := (owners_perm hphase s).nodup_iff.mp h.unique
  rw [owns, howned, Option.toList_some, List.singleton_append, List.perm_middle.nodup_iff] at hunique
  have hid := (List.nodup_cons.mp hunique).1
  rw [List.mem_append, List.mem_append, not_or, not_or] at hid
  refine ⟨?_, hid.2⟩
  intro j phase' hne hj hj'
  exact hid.1 (List.mem_filterMap.mpr ⟨phase', List.mem_eraseIdx_iff_getElem?.mpr ⟨j, hne, hj⟩, hj'⟩)

theorem Owned.known_of_phase {i : Nat} {id : String} (h : Owned s phases) (hphase : phases[i]? = some phase) (howned : phase.owned? = some id) :
    id ∈ s.ids :=
  h.known id (List.mem_append_left _ (List.mem_append_left _
    (List.mem_filterMap.mpr ⟨phase, List.mem_of_getElem? hphase, howned⟩)))

theorem Beat.ids (h : Beat w s phase s' save next) : ∃ l, s'.ids = s.ids ++ l := by
  cases h.owns with
  | inl hsame => exact hsame.2
  | inr hnew =>
    obtain ⟨id, -, -, hids⟩ := hnew
    exact ⟨[id], hids⟩

/-- A message that carries a crawl was there before, or passes on what the
handler held. -/
theorem Beat.carried (h : Beat w s phase s' save next) : ∀ m ∈ s'.messages, ∀ id, Pipeline.carried m = some id →
    m ∈ s.messages ∨ phase = .holding id ∧ next = .forwarded id ∧ w.component.nextTopic = some m.1 := by
  intro m hm id hid
  cases h with
  | sent hp hx =>
    cases List.mem_append.mp hm with
    | inl hm => exact .inl hm
    | inr hm =>
      rw [List.mem_singleton.mp hm, (addressed_new hp hx).2] at hid
      cases hid
  | passed htopic hp hx =>
    cases List.mem_append.mp hm with
    | inl hm => exact .inl hm
    | inr hm =>
      rw [List.mem_singleton.mp hm] at hid ⊢
      rw [(addressed_passed (nextTopic_cases htopic) hp hx).2] at hid
      exact .inr ⟨congrArg Phase.holding (Option.some.inj hid), congrArg Phase.forwarded (Option.some.inj hid), htopic⟩
  | registered url =>
    unfold State.register at hm
    split at hm <;> exact .inl hm
  | concluded landed _ _ _ _ => cases landed <;> exact .inl hm
  | recorded landed _ _ _ => cases landed <;> exact .inl hm
  | _ => exact .inl hm

/-- A crawl finished before, or with the handler that stored it. -/
theorem Beat.finishes (h : Beat w s phase s' save next) {id : String} {c : ComponentName} {correlationId url : String}
    {status : CrawlStatus} (he : .crawlFinish id c correlationId url status ∈ s'.events) :
    .crawlFinish id c correlationId url status ∈ s.events ∨
      phase = .stored id status ∧ next = .finished id ∧ c = w.component := by
  cases h with
  | told haside =>
    cases List.mem_append.mp he with
    | inl he => exact .inl he
    | inr he =>
      rw [← List.mem_singleton.mp he] at haside
      exact haside.elim
  | judged hjudges =>
    cases List.mem_append.mp he with
    | inl he => exact .inl he
    | inr he =>
      rw [← List.mem_singleton.mp he] at hjudges
      exact hjudges.elim
  | announced correlationId url =>
    cases List.mem_append.mp he with
    | inl he => exact .inl he
    | inr he => cases List.mem_singleton.mp he
  | ended correlationId url =>
    cases List.mem_append.mp he with
    | inl he => exact .inl he
    | inr he =>
      cases List.mem_singleton.mp he
      exact .inr ⟨rfl, rfl, rfl⟩
  | registered url =>
    unfold State.register at he
    split at he <;> exact .inl he
  | concluded landed _ _ _ _ => cases landed <;> exact .inl he
  | recorded landed _ _ _ => cases landed <;> exact .inl he
  | _ => exact .inl he

end

end Linksurf.Pipeline
