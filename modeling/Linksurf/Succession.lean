import Linksurf.Ownership

/-!
# The way of a crawl through the components

A crawl is passed on to the next component only, so everyone who ever had it is
behind its owner.
-/
namespace Linksurf.Pipeline

/-- The place of a component in the pipeline. -/
def ComponentName.stage : ComponentName → Nat
  | .frontier => 0
  | .downloader => 1
  | .parser => 2
  | .storage => 3

section

variable {rt : Runtime}

/-- The crawl a handler in a phase had. -/
def Phase.past? : Phase → Option String
  | .forwarded id | .finished id => some id
  | _ => none

/-- Everyone who had a crawl is behind the one who has it. -/
structure Staged (s : State rt) (phases : List Phase) : Prop where
  known : ∀ phase ∈ phases, ∀ id, phase.crawl? = some id → id ∈ s.ids
  handlers : ∀ x ∈ s.work.zip phases, ∀ y ∈ s.work.zip phases, ∀ id, x.2.past? = some id → y.2.owned? = some id →
    x.1.component.stage < y.1.component.stage
  messages : ∀ x ∈ s.work.zip phases, ∀ m ∈ s.messages, ∀ id, x.2.past? = some id → carried m = some id →
    x.1.component.stage < m.1.consumer.stage
  finished : ∀ x ∈ s.work.zip phases, ∀ id c correlationId url status,
    .crawlFinish id c correlationId url status ∈ s.events → x.2.past? = some id →
      x.1.component.stage ≤ c.stage ∧ (x.2 = .forwarded id → x.1.component.stage < c.stage)

theorem staged_initial : Staged (State.initial : State rt) [] :=
  ⟨fun _ h => absurd h List.not_mem_nil, fun _ h => absurd h List.not_mem_nil, fun _ h => absurd h List.not_mem_nil,
    fun _ h => absurd h List.not_mem_nil⟩

theorem crawl?_eq (phase : Phase) : phase.crawl? = phase.owned?.or phase.past? := by cases phase <;> rfl

theorem crawl?_of_past {phase : Phase} {id : String} (h : phase.past? = some id) : phase.crawl? = some id := by
  cases phase <;> first | exact h | cases h

variable {w w' : Work rt} {s s' t : State rt} {phase next : Phase} {phases phases' : List Phase} {i : Nat}

/-- Where a handler neither takes, passes on nor finishes a crawl, all stay in
their places. -/
theorem Staged.same (h : Staged s phases) (hw : s.work[i]? = some w) (hphase : phases[i]? = some phase)
    (hcomponent : w'.component = w.component) (howned : next.owned? = phase.owned?) (hpast : next.past? = phase.past?)
    (hforwarded : ∀ id, next = .forwarded id → phase = .forwarded id)
    (hmessages : ∀ m ∈ s'.messages, ∀ id, carried m = some id → m ∈ s.messages)
    (hevents : ∀ id c correlationId url status, .crawlFinish id c correlationId url status ∈ s'.events →
      .crawlFinish id c correlationId url status ∈ s.events)
    (hids : ∀ id ∈ s.ids, id ∈ s'.ids) : Staged { s' with work := s.work.set i w' } (phases.set i next) := by
  have hold : (w, phase) ∈ s.work.zip phases :=
    List.mem_iff_getElem?.mpr ⟨i, List.getElem?_zip_eq_some.mpr ⟨hw, hphase⟩⟩
  -- every handler stands where one stood before
  have hback (x : Work rt × Phase) (hx : x ∈ (s.work.set i w').zip (phases.set i next)) :
      ∃ y ∈ s.work.zip phases, x.1.component = y.1.component ∧ x.2.owned? = y.2.owned? ∧ x.2.past? = y.2.past? ∧
        ∀ id, x.2 = .forwarded id → y.2 = .forwarded id := by
    cases Positions.mem_zip_set hx with
    | inl he => rw [he]; exact ⟨_, hold, hcomponent, howned, hpast, hforwarded⟩
    | inr hx => exact ⟨x, hx.1, rfl, rfl, rfl, fun _ he => he⟩
  constructor
  · intro phase' hphase' id hid
    cases List.mem_or_eq_of_mem_set hphase' with
    | inl hmem => exact hids id (h.known phase' hmem id hid)
    | inr he =>
      rw [he, crawl?_eq, howned, hpast, ← crawl?_eq] at hid
      exact hids id (h.known phase (List.mem_of_getElem? hphase) id hid)
  · intro x hx y hy id hxid hyid
    obtain ⟨x', hx', hxc, -, hxp, -⟩ := hback x hx
    obtain ⟨y', hy', hyc, hyo, -, -⟩ := hback y hy
    rw [hxc, hyc]
    exact h.handlers x' hx' y' hy' id (hxp ▸ hxid) (hyo ▸ hyid)
  · intro x hx m hm id hxid hmid
    obtain ⟨x', hx', hxc, -, hxp, -⟩ := hback x hx
    rw [hxc]
    exact h.messages x' hx' m (hmessages m hm id hmid) id (hxp ▸ hxid) hmid
  · intro x hx id c correlationId url status he hxid
    obtain ⟨x', hx', hxc, -, hxp, hxf⟩ := hback x hx
    rw [hxc]
    have hfinished := h.finished x' hx' id c correlationId url status (hevents _ _ _ _ _ he) (hxp ▸ hxid)
    exact ⟨hfinished.1, fun hf => hfinished.2 (hxf id hf)⟩

theorem nextTopic_stage {c : ComponentName} {topic : Topic} (h : c.nextTopic = some topic) :
    c.stage < topic.consumer.stage := by
  cases c <;> cases h <;> decide

/-- A handler without its crawl is behind whoever has it. -/
theorem Staged.left (h : Staged s phases) (howned : Owned s phases) {id : String} (hphase : phases[i]? = some phase)
    (hid : phase.owned? = some id) (next : Phase) (hnext : next.owned? = none) (hpast : next.past? = some id)
    (w' : Work rt) :
    (∀ phase' ∈ phases.set i next, ∀ id', phase'.crawl? = some id' → id' ∈ s.ids) ∧
      ∀ y ∈ (s.work.set i w').zip (phases.set i next), ∀ z ∈ (s.work.set i w').zip (phases.set i next), ∀ id',
        y.2.past? = some id' → z.2.owned? = some id' → y.1.component.stage < z.1.component.stage := by
  constructor
  · intro phase' hphase' id' hid'
    cases List.mem_or_eq_of_mem_set hphase' with
    | inl hmem => exact h.known phase' hmem id' hid'
    | inr he =>
      rw [he, crawl?_eq, hnext, hpast] at hid'
      exact Option.some.inj hid' ▸ howned.known_of_phase hphase hid
  · intro y hy z hz id' hyid hzid
    cases Positions.mem_zip_set hz with
    | inl he =>
      rw [he, hnext] at hzid
      cases hzid
    | inr hz =>
      cases Positions.mem_zip_set hy with
      | inl he =>
        obtain rfl : id = id' := by rw [he, hpast] at hyid; exact Option.some.inj hyid
        obtain ⟨-, j, hne, hj⟩ := hz
        exact absurd hzid ((howned.alone hphase hid).1 j _ hne hj)
      | inr hy => exact h.handlers y hy.1 z hz.1 id' hyid hzid

/-- A crawl that is passed on leaves its handler behind. -/
theorem Staged.passed (h : Staged s phases) (howned : Owned s phases) {id : String} {topic : Topic} {x : Json.Plain}
    (hw : s.work[i]? = some w) (hphase : phases[i]? = some (.holding id)) (htopic : w.component.nextTopic = some topic)
    (hx : carried (topic, x) = some id) (hcomponent : w'.component = w.component) :
    Staged { s.send topic x with work := s.work.set i w' } (phases.set i (.forwarded id)) := by
  have hold : (w, .holding id) ∈ s.work.zip phases :=
    List.mem_iff_getElem?.mpr ⟨i, List.getElem?_zip_eq_some.mpr ⟨hw, hphase⟩⟩
  have halone := howned.alone hphase rfl
  obtain ⟨hknown, hhandlers⟩ := h.left howned hphase rfl (.forwarded id) rfl rfl w'
  refine ⟨hknown, hhandlers, ?_, ?_⟩
  · intro y hy m hm id' hyid hmid
    cases Positions.mem_zip_set hy with
    | inl he =>
      rw [he] at hyid ⊢
      obtain rfl : id = id' := Option.some.inj hyid
      cases List.mem_append.mp hm with
      | inl hm => exact absurd (List.mem_filterMap.mpr ⟨m, hm, hmid⟩) halone.2.1
      | inr hm =>
        rw [List.mem_singleton.mp hm, hcomponent]
        exact nextTopic_stage htopic
    | inr hy =>
      cases List.mem_append.mp hm with
      | inl hm => exact h.messages y hy.1 m hm id' hyid hmid
      | inr hm =>
        rw [List.mem_singleton.mp hm] at hmid ⊢
        obtain rfl : id = id' := Option.some.inj (hx.symm.trans hmid)
        exact Nat.lt_trans (h.handlers y hy.1 _ hold id hyid rfl) (nextTopic_stage htopic)
  · intro y hy id' c correlationId url status he hyid
    cases Positions.mem_zip_set hy with
    | inl heq =>
      rw [heq] at hyid
      obtain rfl : id = id' := Option.some.inj hyid
      have hfinished : id ∈ s.events.filterMap Event.finished? := List.mem_filterMap.mpr ⟨_, he, rfl⟩
      exact absurd hfinished halone.2.2
    | inr hy => exact h.finished y hy.1 id' c correlationId url status he hyid

/-- A crawl that is finished was last with its handler. -/
theorem Staged.ended (h : Staged s phases) (howned : Owned s phases) {id : String} {status : CrawlStatus}
    (correlationId url : String) (hw : s.work[i]? = some w) (hphase : phases[i]? = some (.stored id status))
    (hcomponent : w'.component = w.component) :
    Staged { s.tell (.crawlFinish id w.component correlationId url status) with work := s.work.set i w' }
      (phases.set i (.finished id)) := by
  have hold : (w, .stored id status) ∈ s.work.zip phases :=
    List.mem_iff_getElem?.mpr ⟨i, List.getElem?_zip_eq_some.mpr ⟨hw, hphase⟩⟩
  have halone := howned.alone hphase rfl
  obtain ⟨hknown, hhandlers⟩ := h.left howned hphase rfl (.finished id) rfl rfl w'
  refine ⟨hknown, hhandlers, ?_, ?_⟩
  · intro y hy m hm id' hyid hmid
    cases Positions.mem_zip_set hy with
    | inl he =>
      obtain rfl : id = id' := by rw [he] at hyid; exact Option.some.inj hyid
      exact absurd (List.mem_filterMap.mpr ⟨m, hm, hmid⟩) halone.2.1
    | inr hy => exact h.messages y hy.1 m hm id' hyid hmid
  · intro y hy id' c correlationId' url' status' he hyid
    cases Positions.mem_zip_set hy with
    | inl heq =>
      rw [heq] at hyid ⊢
      obtain rfl : id = id' := Option.some.inj hyid
      cases List.mem_append.mp he with
      | inl he =>
        have hfinished : id ∈ s.events.filterMap Event.finished? := List.mem_filterMap.mpr ⟨_, he, rfl⟩
        exact absurd hfinished halone.2.2
      | inr he =>
        cases List.mem_singleton.mp he
        exact ⟨Nat.le_of_eq (congrArg _ hcomponent), nofun⟩
    | inr hy =>
      cases List.mem_append.mp he with
      | inl he => exact h.finished y hy.1 id' c correlationId' url' status' he hyid
      | inr he =>
        cases List.mem_singleton.mp he
        have hlt := h.handlers y hy.1 _ hold id hyid rfl
        exact ⟨Nat.le_of_lt hlt, fun _ => hlt⟩

/-- A crawl that begins has nobody behind it. -/
theorem Staged.begun (h : Staged s phases) {crawl : Crawl} (hash : String) (hfresh : crawl.id ∉ s.ids) :
    Staged { s.startCrawl hash crawl with work := s.work.set i w' } (phases.set i (.begun crawl.id)) := by
  constructor
  · intro phase' hphase' id hid
    cases List.mem_or_eq_of_mem_set hphase' with
    | inl hmem => exact List.mem_append_left _ (h.known phase' hmem id hid)
    | inr he =>
      rw [he] at hid
      cases hid
      exact List.mem_append_right _ (List.mem_singleton_self _)
  · intro y hy z hz id hyid hzid
    cases Positions.mem_zip_set hy with
    | inl he => rw [he] at hyid; cases hyid
    | inr hy =>
      cases Positions.mem_zip_set hz with
      | inr hz => exact h.handlers y hy.1 z hz.1 id hyid hzid
      | inl he =>
        obtain rfl : crawl.id = id := by rw [he] at hzid; exact Option.some.inj hzid
        exact absurd (h.known y.2 (List.of_mem_zip hy.1).2 _ (crawl?_of_past hyid)) hfresh
  · intro y hy m hm id hyid hmid
    cases Positions.mem_zip_set hy with
    | inl he => rw [he] at hyid; cases hyid
    | inr hy => exact h.messages y hy.1 m hm id hyid hmid
  · intro y hy id c correlationId url status he hyid
    cases Positions.mem_zip_set hy with
    | inl he => rw [he] at hyid; cases hyid
    | inr hy => exact h.finished y hy.1 id c correlationId url status he hyid

theorem Staged.beat (h : Staged s phases) (howned : Owned s phases) (hw : s.work[i]? = some w)
    (hphase : phases[i]? = some phase) {save : Save} (hbeat : Beat w s phase s' save next)
    (hcomponent : w'.component = w.component) :
    Staged { s' with work := s.work.set i w' } (phases.set i next) := by
  have hids : ∀ id ∈ s.ids, id ∈ s'.ids := by
    obtain ⟨l, hl⟩ := hbeat.ids
    rw [hl]
    exact fun id hid => List.mem_append_left _ hid
  have hcarried := hbeat.carried
  have hfinishes {id c correlationId url status} := @Beat.finishes _ _ _ _ _ _ _ hbeat id c correlationId url status
  have hstay (howned : next.owned? = phase.owned?) (hpast : next.past? = phase.past?)
      (hforwarded : ∀ id, next = .forwarded id → phase = .forwarded id)
      (hended : ∀ id status, phase = .stored id status → next ≠ .finished id) :
      Staged { s' with work := s.work.set i w' } (phases.set i next) := by
    apply h.same hw hphase hcomponent howned hpast hforwarded
    · intro m hm id hid
      obtain hold | ⟨hholding, hnext, -⟩ := hcarried m hm id hid
      · exact hold
      · rw [hforwarded id hnext] at hholding
        cases hholding
    · intro id c correlationId url status he
      obtain hold | ⟨hstored, hnext, -⟩ := hfinishes he
      · exact hold
      · exact absurd hnext (hended id status hstored)
    · exact hids
  have hunmoved (he : next = phase) : Staged { s' with work := s.work.set i w' } (phases.set i next) := by
    refine hstay (by rw [he]) (by rw [he]) (fun id hnext => he ▸ hnext) ?_
    intro id status hstored hnext
    rw [he, hstored] at hnext
    cases hnext
  cases hbeat with
  | passed htopic hp hx =>
    exact h.passed howned hw hphase htopic (addressed_passed (nextTopic_cases htopic) hp hx).2 hcomponent
  | ended correlationId url => exact h.ended howned correlationId url hw hphase hcomponent
  | begun hash hfresh _ => exact h.begun hash hfresh
  | judged _ => exact hstay rfl rfl nofun nofun
  | announced _ _ => exact hstay rfl rfl nofun nofun
  | concluded _ _ _ _ _ => exact hstay rfl rfl nofun nofun
  | recorded _ _ _ _ => exact hstay rfl rfl nofun nofun
  | _ => exact hunmoved rfl

/-- A new handler is ahead of all that had its crawl. -/
theorem Staged.join (h : Staged s phases) (hlength : s.work.length = phases.length) {messages : List (Topic × Json.Plain)}
    (hmessages : messages ⊆ s.messages) (hpast : phase.past? = none)
    (howned : ∀ id, phase.owned? = some id →
      id ∈ s.ids ∧ ∀ y ∈ s.work.zip phases, y.2.past? = some id → y.1.component.stage < w.component.stage) :
    Staged { s with messages := messages, work := s.work ++ [w] } (phases ++ [phase]) := by
  have hback {y : Work rt × Phase} (hy : y ∈ (s.work ++ [w]).zip (phases ++ [phase])) {id : String}
      (hid : y.2.past? = some id) : y ∈ s.work.zip phases := by
    cases Positions.mem_zip_concat hlength hy with
    | inl hy => exact hy
    | inr he =>
      rw [he, hpast] at hid
      cases hid
  constructor
  · intro phase' hphase' id hid
    cases List.mem_append.mp hphase' with
    | inl hmem => exact h.known phase' hmem id hid
    | inr he =>
      rw [List.mem_singleton.mp he, crawl?_eq, hpast, Option.or_none] at hid
      exact (howned id hid).1
  · intro y hy z hz id hyid hzid
    cases Positions.mem_zip_concat hlength hz with
    | inl hz => exact h.handlers y (hback hy hyid) z hz id hyid hzid
    | inr he =>
      rw [he] at hzid ⊢
      exact (howned id hzid).2 y (hback hy hyid) hyid
  · exact fun y hy m hm id hyid hmid => h.messages y (hback hy hyid) m (hmessages hm) id hyid hmid
  · exact fun y hy id c correlationId url status he hyid => h.finished y (hback hy hyid) id c correlationId url status he hyid

/-- Every step keeps all that had a crawl behind the one that has it. -/
theorem Staged.step (h : Staged s phases) (howned : Owned s phases) {a : Action rt}
    (hchange : Change s phases a t phases') :
    Staged t phases' := by
  have hlength := howned.held.length_eq
  cases hchange with
  | seeded hx =>
    refine ⟨h.known, h.handlers, ?_, h.finished⟩
    intro y hy m hm id hyid hmid
    cases List.mem_append.mp hm with
    | inl hm => exact h.messages y hy m hm id hyid hmid
    | inr hm =>
      rw [List.mem_singleton.mp hm, hx] at hmid
      cases hmid
  | pulled hw => exact h.join hlength (List.Subset.refl _) rfl nofun
  | delivered hm hw hphase hcases =>
    have hmem := List.mem_of_getElem? hm
    apply h.join hlength (List.eraseIdx_subset ..)
    · obtain rfl | ⟨id, rfl⟩ := hcases <;> rfl
    · intro id hid
      rw [hphase] at hid
      have hcarried := List.mem_filterMap.mpr ⟨_, hmem, hid⟩
      refine ⟨howned.known id (List.mem_append_left _ (List.mem_append_right _ hcarried)), ?_⟩
      intro y hy hyid
      rw [hw]
      exact h.messages y hy _ hmem id hyid hid
  | beaten hw hphase hbeat hcomponent => exact h.beat howned hw hphase hbeat hcomponent

end

end Linksurf.Pipeline
