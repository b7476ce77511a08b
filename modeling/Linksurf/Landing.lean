import Linksurf.Finishing

/-!
# A finished crawl stays finished

A crawl is saved by every component that had it, in any order the writes land.
Where no component ends it before those behind have saved it, the last save is
that of the component that finished the crawl, and the record stays so.
-/
namespace Linksurf.Pipeline

open Coroutine
open Execution

/-- The statuses a crawl may end with. -/
def CrawlStatus.Ends (status : CrawlStatus) : Prop := status ≠ .pending ∧ status ≠ .inProgress

instance : DecidablePred CrawlStatus.Ends := fun _ => inferInstanceAs (Decidable (_ ∧ _))

/-! ## The store -/

/-- A save takes effect at once. -/
theorem CrawlStore.Recorded.save {store : CrawlStore} (h : store.Recorded) (hidle : store.pending = []) (u : Update) :
    (store.save u).Recorded ∧ (store.save u).pending = [] ∧ (store.save u).log = store.log ++ [.landed u] := by
  have hne : ∀ v ∈ store.pending, v.crawlId = u.crawlId → v.execution.component ≠ u.execution.component := by
    rw [hidle]
    exact fun v hv => absurd hv List.not_mem_nil
  have hupdated := h.updateCrawl hne
  unfold CrawlStore.save
  split
  · rename_i hmatch
    have heq : store.updateCrawl u = ⟨_, _, _⟩ := if_pos hmatch
    refine ⟨hupdated, ?_, ?_⟩
    · rw [heq]
      exact hidle
    · rw [heq]
  · rename_i hnone
    have heq : store.updateCrawl u = { store with pending := store.pending ++ [u] } := if_neg hnone
    refine ⟨hupdated.append ?_, ?_, ?_⟩
    · rw [heq]
      simp
    · rw [heq]
      simp [CrawlStore.append, hidle]
    · rw [heq]
      rfl

theorem startCrawl_log (store : CrawlStore) (start : Start) :
    (store.startCrawl start).log = store.log ∨ (store.startCrawl start).log = store.log ++ [.started start] := by
  unfold CrawlStore.startCrawl
  split
  · exact .inr rfl
  · exact .inl rfl

section

variable {rt : Runtime}

/-! ## Saves that land -/

/-- All components behind one that ends a crawl have saved it. -/
def State.SavedBehind (s : State rt) (w : Work rt) (u : Update) : Prop := ¬ u.HasStatus .inProgress →
  ∀ w' ∈ s.work, w'.crawl = some u.crawlId → w'.component.stage < w.component.stage → w'.save ≠ .due

/-- No component ends a crawl before those behind it have saved it. -/
def State.Orderly (s : State rt) : Action rt → Prop
  | .answer i _ _ => ∀ w u, s.work[i]? = some w → w.awaited = some (.updateCrawl u) → s.SavedBehind w u
  | _ => True

def State.lastStatus (s : State rt) (id : String) : Option FieldValue := latestValue (updatesSince s.store.log id) .status

/-- The component that finishes the crawl has saved it. -/
def Concluded (phases : List Phase) (s : State rt) (id : String) : Prop :=
  (∃ status, .stored id status ∈ phases) ∨ id ∈ s.events.filterMap Event.finished?

structure Landings (s : State rt) (phases : List Phase) : Prop where
  recorded : s.store.Recorded
  idle : s.store.pending = []
  begins : ∀ st ∈ allStarts s.store.log, st.id ∈ s.ids ∧ st.values .status = .str CrawlStatus.inProgress.value
  saved : ∀ id, Concluded phases s id → ∀ phase ∈ phases, phase.crawl? = some id → ¬ phase.Unsaved
  ends : ∀ id, ∀ u ∈ updatesSince s.store.log id, ∀ status : CrawlStatus, status.Ends → u.HasStatus status →
    Concluded phases s id
  stored : ∀ x ∈ s.work.zip phases, ∀ id status, x.2 = .stored id status → x.1.save = .landed →
    s.lastStatus id = some (.str status.value)
  finished : ∀ id c correlationId url status, .crawlFinish id c correlationId url status ∈ s.events →
    ∃ x ∈ s.work.zip phases, x.2 = .finished id ∧ (x.1.save = .landed → s.lastStatus id = some (.str status.value))

theorem landings_initial : Landings (State.initial : State rt) [] := by
  refine ⟨CrawlStore.recorded_initial, rfl, ?_, ?_, ?_, ?_, ?_⟩
  · exact fun st hst => absurd hst List.not_mem_nil
  · exact fun id _ phase hphase => absurd hphase List.not_mem_nil
  · exact fun id u hu => absurd hu List.not_mem_nil
  · exact fun x hx => absurd hx List.not_mem_nil
  · exact fun id c correlationId url status he => absurd he List.not_mem_nil

variable {w w' : Work rt} {s s' t : State rt} {phase next : Phase} {phases phases' : List Phase} {save : Save}
  {i : Nat} {id : String}

theorem Concluded.known (h : Concluded phases s id) (howned : Owned s phases) : id ∈ s.ids := by
  apply howned.known
  obtain ⟨status, hphase⟩ | hevent := h
  · exact List.mem_append_left _ (List.mem_append_left _ (List.mem_filterMap.mpr ⟨_, hphase, rfl⟩))
  · exact List.mem_append_right _ hevent

/-- What a beat does to the database. -/
theorem Beat.store (h : Beat w s phase s' save next) :
    s'.store = s.store ∨ (∃ hash, s'.store = s.store.registerUrl hash) ∨
    (∃ start : Start, start.id ∉ s.ids ∧ start.id ∈ s'.ids ∧
      start.values .status = .str CrawlStatus.inProgress.value ∧ s'.store = s.store.startCrawl start) ∨
    ∃ u, s'.store = s.store.save u ∧ save = .landed ∧
      ((∃ ok status, phase = .judged u.crawlId ok ∧ next = .stored u.crawlId status ∧ u.HasStatus status) ∨
        phase = .forwarded u.crawlId ∧ next = .finished u.crawlId ∧ u.HasStatus .inProgress) := by
  cases h with
  | registered url =>
    unfold State.register
    split
    · exact .inl rfl
    · exact .inr (.inl ⟨url.hash, rfl⟩)
  | unanswered hash hfresh hbegins =>
    rename_i crawl
    exact .inr (.inr (.inl ⟨⟨hash, crawl.id, crawl.values⟩, hfresh,
      List.mem_append_right _ (List.mem_singleton_self _), hbegins, rfl⟩))
  | begun hash hfresh hbegins =>
    rename_i crawl
    exact .inr (.inr (.inl ⟨⟨hash, crawl.id, crawl.values⟩, hfresh,
      List.mem_append_right _ (List.mem_singleton_self _), hbegins, rfl⟩))
  | concluded landed hawaited hcomponent hstatus hterminal =>
    cases landed with
    | false => exact .inl rfl
    | true => exact .inr (.inr (.inr ⟨_, rfl, rfl, .inl ⟨_, _, rfl, rfl, hstatus⟩⟩))
  | recorded landed hawaited hcomponent hstatus =>
    cases landed with
    | false => exact .inl rfl
    | true => exact .inr (.inr (.inr ⟨_, rfl, rfl, .inr ⟨rfl, rfl, hstatus⟩⟩))
  | _ => exact .inl rfl

theorem Landings.new (h : Landings s phases) (hid : id ∉ s.ids) : ∀ st ∈ allStarts s.store.log, st.id ≠ id :=
  fun st hst he => hid (he ▸ (h.begins st hst).1)

theorem registerUrl_log (store : CrawlStore) (hash : String) :
    (store.registerUrl hash).log = store.log ∧ (store.registerUrl hash).pending = store.pending := by
  unfold CrawlStore.registerUrl
  split <;> exact ⟨rfl, rfl⟩

theorem startCrawl_pending (store : CrawlStore) (start : Start) : (store.startCrawl start).pending = store.pending := by
  unfold CrawlStore.startCrawl
  split <;> rfl

/-- The database stays what its log says. -/
theorem Beat.logged (hbeat : Beat w s phase s' save next) (h : Landings s phases) :
    s'.store.Recorded ∧ s'.store.pending = [] ∧
      ∀ st ∈ allStarts s'.store.log, st.id ∈ s'.ids ∧ st.values .status = .str CrawlStatus.inProgress.value := by
  have hold : ∀ st ∈ allStarts s.store.log, st.id ∈ s'.ids ∧ st.values .status = .str CrawlStatus.inProgress.value := by
    obtain ⟨l, hl⟩ := hbeat.ids
    rw [hl]
    exact fun st hst => ⟨List.mem_append_left _ (h.begins st hst).1, (h.begins st hst).2⟩
  obtain hstore | ⟨hash, hstore⟩ | ⟨start, hfresh, hids, hbegins, hstore⟩ | ⟨u, hstore, -⟩ := hbeat.store
  · rw [hstore]
    exact ⟨h.recorded, h.idle, hold⟩
  · rw [hstore, (registerUrl_log _ _).1, (registerUrl_log _ _).2]
    exact ⟨h.recorded.registerUrl hash, h.idle, hold⟩
  · rw [hstore]
    refine ⟨h.recorded.startCrawl (h.new hfresh), ?_, ?_⟩
    · rw [startCrawl_pending]
      exact h.idle
    · intro st hst
      obtain hlog | hlog := startCrawl_log s.store start
      · rw [hlog] at hst
        exact hold st hst
      · rw [hlog, allStarts_started] at hst
        cases List.mem_append.mp hst with
        | inl hst => exact hold st hst
        | inr hst => rw [List.mem_singleton.mp hst]; exact ⟨hids, hbegins⟩
  · obtain ⟨hrecorded, hpending, hlog⟩ := h.recorded.save h.idle u
    rw [hstore, hlog, allStarts_landed]
    exact ⟨hrecorded, hpending, hold⟩

/-- What a beat adds to the updates of a crawl. -/
theorem Beat.updates (hbeat : Beat w s phase s' save next) (h : Landings s phases) (id : String) :
    updatesSince s'.store.log id = updatesSince s.store.log id ∨ (updatesSince s'.store.log id = [] ∧ id ∉ s.ids) ∨
    ∃ u, updatesSince s'.store.log id = updatesSince s.store.log id ++ [u] ∧ save = .landed ∧
      ((∃ ok status, phase = .judged id ok ∧ next = .stored id status ∧ u.HasStatus status) ∨
        phase = .forwarded id ∧ next = .finished id ∧ u.HasStatus .inProgress) := by
  obtain hstore | ⟨hash, hstore⟩ | ⟨start, hfresh, -, -, hstore⟩ | ⟨u, hstore, hsave, hcases⟩ := hbeat.store
  · exact .inl (by rw [hstore])
  · exact .inl (by rw [hstore, (registerUrl_log _ _).1])
  · rw [hstore]
    obtain hlog | hlog := startCrawl_log s.store start
    · exact .inl (by rw [hlog])
    · rw [hlog, updatesSince_started]
      by_cases he : start.id = id
      · exact .inr (.inl ⟨if_pos he, he ▸ hfresh⟩)
      · exact .inl (if_neg he)
  · rw [hstore, (h.recorded.save h.idle u).2.2, updatesSince_landed]
    by_cases he : u.crawlId = id
    · subst he
      exact .inr (.inr ⟨u, if_pos rfl, hsave, hcases⟩)
    · exact .inl (if_neg he)

/-- Nothing is saved for a concluded crawl. -/
theorem Beat.updates_concluded (hbeat : Beat w s phase s' save next) (h : Landings s phases) (howned : Owned s phases)
    (hphase : phase ∈ phases) (hconcluded : Concluded phases s id) :
    updatesSince s'.store.log id = updatesSince s.store.log id := by
  obtain hsame | ⟨-, hnew⟩ | ⟨u, -, -, hcases⟩ := hbeat.updates h id
  · exact hsame
  · exact absurd (hconcluded.known howned) hnew
  · obtain ⟨ok, status, rfl, -⟩ | ⟨rfl, -⟩ := hcases
    · exact absurd trivial (h.saved id hconcluded _ hphase rfl)
    · exact absurd trivial (h.saved id hconcluded _ hphase rfl)

theorem Beat.grows (h : Beat w s phase s' save next) : ∃ l, s'.events = s.events ++ l := by
  cases h with
  | told _ => exact ⟨_, rfl⟩
  | judged _ => exact ⟨_, rfl⟩
  | announced _ _ => exact ⟨_, rfl⟩
  | ended _ _ => exact ⟨_, rfl⟩
  | registered url =>
    unfold State.register
    split <;> exact ⟨[], by simp⟩
  | concluded landed _ _ _ _ => cases landed <;> exact ⟨[], by simp [State.saved, State.saveCrawl]⟩
  | recorded landed _ _ _ => cases landed <;> exact ⟨[], by simp [State.saved, State.saveCrawl]⟩
  | _ => exact ⟨[], by simp [State.send, State.startCrawl, State.refuseCrawl]⟩

/-- A handler that stored the last status of its crawl finishes it. -/
theorem Beat.of_stored {status : CrawlStatus} (h : Beat w s (.stored id status) s' save next) :
    next = .stored id status ∧ save = w.save ∨ next = .finished id ∧ save = w.save ∧
      id ∈ s'.events.filterMap Event.finished? := by
  cases h with
  | ended correlationId url =>
    refine .inr ⟨rfl, rfl, List.mem_filterMap.mpr ⟨_, List.mem_append_right _ (List.mem_singleton_self _), rfl⟩⟩
  | _ => exact .inl ⟨rfl, rfl⟩

theorem Beat.to_stored {status : CrawlStatus} (h : Beat w s phase s' save (.stored id status)) :
    phase = .stored id status ∧ save = w.save ∨ ∃ ok, phase = .judged id ok := by
  cases h with
  | concluded _ _ _ _ _ => exact .inr ⟨_, rfl⟩
  | _ => exact .inl ⟨rfl, rfl⟩

/-- A crawl is concluded by the handler that stores its last status. -/
theorem Beat.concludes (hbeat : Beat w s phase s' save next) (hphase : phases[i]? = some phase) (id : String) :
    (Concluded phases s id → Concluded (phases.set i next) s' id) ∧
      (Concluded (phases.set i next) s' id →
        Concluded phases s id ∨ ∃ ok status, phase = .judged id ok ∧ next = .stored id status) := by
  have hmem : next ∈ phases.set i next := List.mem_set (List.getElem?_eq_some_iff.mp hphase).1 next
  constructor
  · rintro (⟨status, hstored⟩ | hevent)
    · obtain ⟨j, hj⟩ := List.mem_iff_getElem?.mp hstored
      by_cases he : i = j
      · subst he
        obtain rfl := Option.some.inj (hphase.symm.trans hj)
        obtain ⟨rfl, -⟩ | ⟨-, -, hfinished⟩ := hbeat.of_stored
        · exact .inl ⟨status, hmem⟩
        · exact .inr hfinished
      · exact .inl ⟨status, List.mem_iff_getElem?.mpr ⟨j, by rw [List.getElem?_set_ne he, hj]⟩⟩
    · obtain ⟨l, hl⟩ := hbeat.grows
      rw [Concluded, hl, List.filterMap_append]
      exact .inr (List.mem_append_left _ hevent)
  · rintro (⟨status, hstored⟩ | hevent)
    · cases List.mem_or_eq_of_mem_set hstored with
      | inl hstored => exact .inl (.inl ⟨status, hstored⟩)
      | inr he =>
        subst he
        obtain ⟨rfl, -⟩ | ⟨ok, rfl⟩ := hbeat.to_stored
        · exact .inl (.inl ⟨status, List.mem_of_getElem? hphase⟩)
        · exact .inr ⟨ok, status, rfl, rfl⟩
    · obtain ⟨e, he, hid⟩ := List.mem_filterMap.mp hevent
      cases e with
      | crawlFinish id' c correlationId url status =>
        obtain rfl := Option.some.inj hid
        obtain hold | ⟨rfl, -⟩ := hbeat.finishes he
        · exact .inl (.inr (List.mem_filterMap.mpr ⟨_, hold, rfl⟩))
        · exact .inl (.inl ⟨status, List.mem_of_getElem? hphase⟩)
      | _ => cases hid

theorem Beat.crawl (h : Beat w s phase s' save next) :
    next.crawl? = phase.crawl? ∨ ∃ id, id ∉ s.ids ∧ next = .begun id := by
  cases h with
  | begun hash hfresh _ => exact .inr ⟨_, hfresh, rfl⟩
  | _ => exact .inl rfl

/-- A handler that saved has saved. -/
theorem Beat.of_saved (h : Beat w s phase s' save next) (hsaved : ¬ phase.Unsaved) : ¬ next.Unsaved ∧ save = w.save := by
  cases h <;> first | exact ⟨hsaved, rfl⟩ | exact absurd trivial hsaved

theorem Beat.of_finished (h : Beat w s (.finished id) s' save next) : next = .finished id ∧ save = w.save := by
  cases h <;> exact ⟨rfl, rfl⟩

theorem Beat.awaits (h : Beat w s phase s' save next) {ok : Bool} {status : CrawlStatus} (hphase : phase = .judged id ok)
    (hnext : next = .stored id status) :
    ∃ u, w.awaited = some (.updateCrawl u) ∧ u.crawlId = id ∧ ¬ u.HasStatus .inProgress := by
  cases h with
  | concluded landed hawaited _ hstatus hterminal =>
    cases hphase
    exact ⟨_, hawaited, rfl, fun hprogress => hterminal.1 (hstatus.unique hprogress)⟩
  | _ => cases hphase <;> cases hnext

/-- The last status of a crawl that is saved by the component that finishes it. -/
theorem Beat.verdict (h : Beat w s phase s' save next) (hlandings : Landings s phases) {ok : Bool} {status : CrawlStatus}
    (hsave : save = .landed) (hphase : phase = .judged id ok) (hnext : next = .stored id status) :
    s'.lastStatus id = some (.str status.value) := by
  cases h with
  | concluded landed hawaited hcomponent hstatus hterminal =>
    cases hphase
    cases hnext
    cases landed with
    | false => cases hsave
    | true =>
      rw [State.lastStatus, State.saved, if_pos rfl, State.saveCrawl, (hlandings.recorded.save hlandings.idle _).2.2,
        updatesSince_landed, if_pos rfl, latestValue_concat, show _ = some _ from hstatus, Option.some_or]
  | _ => cases hphase <;> cases hnext

section

variable (hbeat : Beat w s phase s' save next) (h : Landings s phases) (hfollowed : Followed s phases)
  (hw : s.work[i]? = some w) (hphase : phases[i]? = some phase)

include hbeat h hfollowed hphase

theorem Beat.lastStatus_concluded (hid : Concluded phases s id) : s'.lastStatus id = s.lastStatus id := by
  rw [State.lastStatus, hbeat.updates_concluded h hfollowed.owned (List.mem_of_getElem? hphase) hid, State.lastStatus]

include hw

/-- A crawl is concluded when all that had it have saved it. -/
theorem Beat.saved (horderly : ∀ u, w.awaited = some (.updateCrawl u) → s.SavedBehind w u)
    (hid : Concluded (phases.set i next) s' id) {phase' : Phase} (hphase' : phase' ∈ phases.set i next)
    (hcrawl : phase'.crawl? = some id) : ¬ phase'.Unsaved := by
  obtain hold | ⟨ok, status, hjudged, hstored⟩ := (hbeat.concludes hphase id).2 hid
  · cases List.mem_or_eq_of_mem_set hphase' with
    | inl hphase' => exact h.saved id hold phase' hphase' hcrawl
    | inr he =>
      rw [he] at hcrawl ⊢
      obtain hsame | ⟨new, hnew, hbegun⟩ := hbeat.crawl
      · exact (hbeat.of_saved (h.saved id hold phase (List.mem_of_getElem? hphase) (hsame ▸ hcrawl))).1
      · rw [hbegun] at hcrawl
        cases hcrawl
        exact absurd (hold.known hfollowed.owned) hnew
  · obtain ⟨u, hawaited, rfl, hends⟩ := hbeat.awaits hjudged hstored
    obtain ⟨j, hj⟩ := List.mem_iff_getElem?.mp hphase'
    by_cases he : i = j
    · subst he
      rw [List.getElem?_set_self (List.getElem?_eq_some_iff.mp hphase).1] at hj
      obtain rfl := Option.some.inj hj
      rw [hstored]
      exact id
    · rw [List.getElem?_set_ne he] at hj
      obtain ⟨v, hv, hheld⟩ := Positions.forall₂_getElem? hfollowed.owned.held.flip hj
      have howns : phase.owned? = some u.crawlId := by rw [hjudged]; rfl
      have hother := (hfollowed.owned.alone hphase howns).1 j phase' (Ne.symm he) hj
      have hpast : phase'.past? = some u.crawlId := by
        cases phase' <;> first | exact hcrawl | exact absurd hcrawl hother
      have hbehind := hfollowed.staged.handlers (v, phase')
        (List.mem_iff_getElem?.mpr ⟨j, List.getElem?_zip_eq_some.mpr ⟨hv, hj⟩⟩) (w, phase)
        (List.mem_iff_getElem?.mpr ⟨i, List.getElem?_zip_eq_some.mpr ⟨hw, hphase⟩⟩) u.crawlId hpast howns
      have hdone := horderly u hawaited hends v (List.mem_of_getElem? hv) (hheld.crawl.trans hcrawl) hbehind
      exact fun hunsaved => hdone (hheld.due.mpr hunsaved)

omit hw hfollowed in
/-- An update that ends a crawl is that of the component that concludes it. -/
theorem Beat.ends {u : Update} (hu : u ∈ updatesSince s'.store.log id) {status : CrawlStatus} (hends : status.Ends)
    (hstatus : u.HasStatus status) : Concluded (phases.set i next) s' id := by
  have hold (hu : u ∈ updatesSince s.store.log id) : Concluded (phases.set i next) s' id :=
    (hbeat.concludes hphase id).1 (h.ends id u hu status hends hstatus)
  obtain hsame | ⟨hnone, -⟩ | ⟨new, hnew, -, hcases⟩ := hbeat.updates h id
  · exact hold (hsame ▸ hu)
  · rw [hnone] at hu
    exact absurd hu List.not_mem_nil
  · rw [hnew] at hu
    cases List.mem_append.mp hu with
    | inl hu => exact hold hu
    | inr hu =>
      obtain rfl := List.mem_singleton.mp hu
      obtain ⟨ok, verdict, -, hstored, -⟩ | ⟨-, -, hprogress⟩ := hcases
      · refine .inl ⟨verdict, ?_⟩
        rw [← hstored]
        exact List.mem_set (List.getElem?_eq_some_iff.mp hphase).1 next
      · exact absurd (hstatus.unique hprogress) hends.2

theorem Beat.stored (hsave : w'.save = save) {x : Work rt × Phase} (hx : x ∈ (s.work.set i w').zip (phases.set i next))
    {status : CrawlStatus} (hstored : x.2 = .stored id status) (hlanded : x.1.save = .landed) :
    s'.lastStatus id = some (.str status.value) := by
  have hself : (w, phase) ∈ s.work.zip phases :=
    List.mem_iff_getElem?.mpr ⟨i, List.getElem?_zip_eq_some.mpr ⟨hw, hphase⟩⟩
  cases Positions.mem_zip_set hx with
  | inl he =>
    obtain rfl := he
    obtain rfl : next = .stored id status := hstored
    rw [hsave] at hlanded
    obtain ⟨rfl, hkept⟩ | ⟨ok, hjudged⟩ := hbeat.to_stored
    · rw [hbeat.lastStatus_concluded h hfollowed hphase (.inl ⟨status, List.mem_of_getElem? hphase⟩)]
      exact h.stored _ hself id status rfl (hkept ▸ hlanded)
    · exact hbeat.verdict h hlanded hjudged rfl
  | inr hx =>
    have hmem := (List.of_mem_zip hx.1).2
    rw [hstored] at hmem
    rw [hbeat.lastStatus_concluded h hfollowed hphase (.inl ⟨status, hmem⟩)]
    exact h.stored x hx.1 id status hstored hlanded

theorem Beat.finished (hsave : w'.save = save) {c : ComponentName} {correlationId url : String} {status : CrawlStatus}
    (he : .crawlFinish id c correlationId url status ∈ s'.events) :
    ∃ x ∈ (s.work.set i w').zip (phases.set i next), x.2 = .finished id ∧
      (x.1.save = .landed → s'.lastStatus id = some (.str status.value)) := by
  have hself : (w, phase) ∈ s.work.zip phases :=
    List.mem_iff_getElem?.mpr ⟨i, List.getElem?_zip_eq_some.mpr ⟨hw, hphase⟩⟩
  have hself' := Positions.mem_zip_set_self hw hphase w' next
  obtain hold | ⟨rfl, hfinished, -⟩ := hbeat.finishes he
  · rw [hbeat.lastStatus_concluded h hfollowed hphase (.inr (List.mem_filterMap.mpr ⟨_, hold, rfl⟩))]
    obtain ⟨x, hx, hxf, hxs⟩ := h.finished id c correlationId url status hold
    obtain ⟨j, hj⟩ := List.mem_iff_getElem?.mp hx
    by_cases hij : i = j
    · subst hij
      obtain ⟨hxw, hxp⟩ := List.getElem?_zip_eq_some.mp hj
      obtain rfl : w = x.1 := Option.some.inj (hw.symm.trans hxw)
      obtain rfl : phase = .finished id := (Option.some.inj (hphase.symm.trans hxp)).trans hxf
      obtain ⟨hnext, hkept⟩ := hbeat.of_finished
      exact ⟨_, hself', hnext, fun hlanded => hxs ((hkept.symm.trans hsave.symm).trans hlanded)⟩
    · exact ⟨x, Positions.mem_zip_set_of_ne (Ne.symm hij) hj _ _, hxf, hxs⟩
  · rw [hbeat.lastStatus_concluded h hfollowed hphase (.inl ⟨status, List.mem_of_getElem? hphase⟩)]
    have hkept : save = w.save := by
      obtain ⟨-, hkept⟩ | ⟨-, hkept, -⟩ := hbeat.of_stored
      · exact hkept
      · exact hkept
    exact ⟨_, hself', hfinished, fun hlanded =>
      h.stored _ hself id status rfl ((hkept.symm.trans hsave.symm).trans hlanded)⟩

end

/-- A crawl that is on its way is not concluded. -/
theorem Owned.not_concluded (h : Owned s phases) (hid : id ∈ s.messages.filterMap carried) :
    ¬ Concluded phases s id := by
  have hunique := h.unique
  rw [owners, List.nodup_append', List.nodup_append'] at hunique
  obtain ⟨⟨-, -, hphases⟩, -, hevents⟩ := hunique
  rintro (⟨status, hstored⟩ | hevent)
  · exact hphases (List.mem_filterMap.mpr ⟨_, hstored, rfl⟩) hid
  · exact hevents (List.mem_append_right _ hid) hevent

/-- A new handler concludes nothing. -/
theorem Landings.join (h : Landings s phases) (hlength : s.work.length = phases.length)
    (messages : List (Topic × Json.Plain)) (w : Work rt) (hstored : ∀ id status, phase ≠ .stored id status)
    (hopen : ∀ id, phase.crawl? = some id → ¬ Concluded phases s id) :
    Landings { s with messages := messages, work := s.work ++ [w] } (phases ++ [phase]) := by
  have hconcluded {id : String} (hid : Concluded (phases ++ [phase]) { s with messages := messages, work := s.work ++ [w] } id) :
      Concluded phases s id := by
    obtain ⟨status, hmem⟩ | hevent := hid
    · cases List.mem_append.mp hmem with
      | inl hmem => exact .inl ⟨status, hmem⟩
      | inr he => exact absurd (List.mem_singleton.mp he).symm (hstored id status)
    · exact .inr hevent
  refine ⟨h.recorded, h.idle, h.begins, ?_, ?_, ?_, ?_⟩
  · intro id hid phase' hphase' hcrawl
    cases List.mem_append.mp hphase' with
    | inl hmem => exact h.saved id (hconcluded hid) phase' hmem hcrawl
    | inr he =>
      rw [List.mem_singleton.mp he] at hcrawl
      exact absurd (hconcluded hid) (hopen id hcrawl)
  · intro id u hu status hends hstatus
    exact (h.ends id u hu status hends hstatus).imp_left
      (fun hstored => hstored.imp (fun _ hmem => List.mem_append_left _ hmem))
  · intro x hx id status hx' hlanded
    cases Positions.mem_zip_concat hlength hx with
    | inl hx => exact h.stored x hx id status hx' hlanded
    | inr he =>
      rw [he] at hx'
      exact absurd hx' (hstored id status)
  · intro id c correlationId url status he
    obtain ⟨x, hx, hrest⟩ := h.finished id c correlationId url status he
    refine ⟨x, ?_, hrest⟩
    rw [List.zip_append hlength]
    exact List.mem_append_left _ hx

/-- Every step in order keeps the crawls concluded or open as they should be. -/
theorem Landings.step (h : Landings s phases) (hfollowed : Followed s phases) {a : Action rt} (horderly : s.Orderly a)
    (hchange : Change s phases a t phases') : Landings t phases' := by
  have hlength := hfollowed.owned.held.length_eq
  cases hchange with
  | seeded hx => exact ⟨h.recorded, h.idle, h.begins, h.saved, h.ends, h.stored, h.finished⟩
  | pulled hw => exact h.join hlength _ _ nofun nofun
  | delivered hm hw howned hcases =>
    obtain rfl | ⟨id, rfl⟩ := hcases
    · exact h.join hlength _ _ nofun nofun
    · apply h.join hlength _ _ (fun _ _ he => Phase.noConfusion he)
      intro id' hid
      obtain rfl := Option.some.inj hid
      exact hfollowed.owned.not_concluded (List.mem_filterMap.mpr ⟨_, List.mem_of_getElem? hm, howned.symm⟩)
  | beaten hw hphase hbeat hcomponent =>
    obtain ⟨hrecorded, hidle, hbegins⟩ := hbeat.logged h
    refine ⟨hrecorded, hidle, hbegins, ?_, ?_, ?_, ?_⟩
    · exact fun id hid phase' => hbeat.saved h hfollowed hw hphase (fun u => horderly _ u hw) hid
    · exact fun id u hu status => hbeat.ends h hphase hu
    · exact fun x hx id status => hbeat.stored h hfollowed hw hphase rfl hx
    · exact fun id c correlationId url status => hbeat.finished h hfollowed hw hphase rfl

/-! ## Whole runs -/

/-- A crawl as the database has it. -/
def State.Stores (s : State rt) (c : Crawl) : Prop := ∃ d ∈ s.store.documents, c ∈ d.crawls

/-- What the run of a crawl is, with what is saved of it. -/
structure Tracked (s : State rt) (phases : List Phase) : Prop where
  followed : Followed s phases
  landings : Landings s phases

/-- Steps in which crawls have ids of their own and are saved in order. -/
def State.Ordered (s : State rt) (a : Action rt) : Prop := s.Fresh a ∧ s.Orderly a

theorem Tracked.step (h : Tracked s phases) {a : Action rt} (hordered : s.Ordered a) (hstep : s.step a = some t) :
    ∃ phases', Change s phases a t phases' ∧ Tracked t phases' := by
  obtain ⟨phases', hchange, hfollowed⟩ := h.followed.step hordered.1 hstep
  exact ⟨phases', hchange, hfollowed, h.landings.step h.followed hordered.2 hchange⟩

theorem tracked_reached (h : Reaches State.step State.Ordered (State.initial : State rt) s) :
    ∃ phases, Tracked s phases := by
  apply h.invariant (fun s => ∃ phases, Tracked s phases)
  · exact ⟨[], ⟨owned_initial, judged_initial, staged_initial⟩, landings_initial⟩
  · rintro s a t ⟨phases, hs⟩ hordered hstep
    obtain ⟨phases', -, ht⟩ := hs.step hordered hstep
    exact ⟨phases', ht⟩

/-- The record of a stored crawl. -/
theorem Landings.record (h : Landings s phases) {c : Crawl} (hc : s.Stores c) :
    ∃ st ∈ allStarts s.store.log, st.id = c.id ∧ c = Crawl.record st (updatesSince s.store.log c.id) := by
  obtain ⟨d, hd, hc⟩ := hc
  obtain ⟨st, hst, -, rfl⟩ := h.recorded.start hd hc
  exact ⟨st, hst, (Crawl.record_id ..).symm, by rw [Crawl.record_id]⟩

theorem Landings.status (h : Landings s phases) {c : Crawl} (hc : s.Stores c) :
    c.values .status = (s.lastStatus c.id).getD (.str CrawlStatus.inProgress.value) := by
  obtain ⟨st, hst, hid, hrecord⟩ := h.record hc
  rw [hrecord, Crawl.record_values, (h.begins st hst).2, Crawl.record_id, hid]
  rfl

theorem mem_of_latestValue {us : List Update} {field : CrawlField} {v : FieldValue} (h : latestValue us field = some v) :
    ∃ u ∈ us, u.fields.get? field = some v := List.mem_filterMap.mp (List.mem_of_getLast? h)

/-- A stored crawl with a terminal status is concluded. -/
theorem Landings.concluded_of_status (h : Landings s phases) {c : Crawl} (hc : s.Stores c) {status : CrawlStatus}
    (hends : status.Ends) (hstatus : c.values .status = .str status.value) : Concluded phases s c.id := by
  rw [h.status hc] at hstatus
  cases hlast : s.lastStatus c.id with
  | none =>
    rw [hlast, Option.getD_none] at hstatus
    have hvalue : CrawlStatus.inProgress.value = status.value := by injection hstatus
    exact absurd (CrawlStatus.value_injective hvalue).symm hends.2
  | some v =>
    rw [hlast, Option.getD_some] at hstatus
    rw [hstatus] at hlast
    obtain ⟨u, hu, hfield⟩ := mem_of_latestValue hlast
    exact h.ends c.id u hu status hends hfield

theorem Beat.starts (hbeat : Beat w s phase s' save next) (h : Landings s phases) :
    allStarts s.store.log ⊆ allStarts s'.store.log := by
  obtain hstore | ⟨hash, hstore⟩ | ⟨start, -, -, -, hstore⟩ | ⟨u, hstore, -⟩ := hbeat.store
  · rw [hstore]
    exact List.Subset.refl _
  · rw [hstore, (registerUrl_log _ _).1]
    exact List.Subset.refl _
  · rw [hstore]
    obtain hlog | hlog := startCrawl_log s.store start
    · rw [hlog]
      exact List.Subset.refl _
    · rw [hlog, allStarts_started]
      exact List.subset_append_left ..
  · rw [hstore, (h.recorded.save h.idle u).2.2, allStarts_landed]
    exact List.Subset.refl _

/-- A concluded crawl is left alone. -/
theorem Tracked.unchanged (h : Tracked s phases) {a : Action rt} (hchange : Change s phases a t phases')
    (hid : Concluded phases s id) : Concluded phases' t id ∧
      updatesSince t.store.log id = updatesSince s.store.log id ∧ allStarts s.store.log ⊆ allStarts t.store.log := by
  have hmore (phase : Phase) : Concluded (phases ++ [phase]) s id :=
    hid.imp_left (fun hstored => hstored.imp (fun _ hmem => List.mem_append_left _ hmem))
  cases hchange with
  | seeded hx => exact ⟨hid, rfl, List.Subset.refl _⟩
  | pulled hw => exact ⟨hmore _, rfl, List.Subset.refl _⟩
  | delivered hm hw howned hcases => exact ⟨hmore _, rfl, List.Subset.refl _⟩
  | beaten hw hphase hbeat hcomponent =>
    exact ⟨(hbeat.concludes hphase id).1 hid,
      hbeat.updates_concluded h.landings h.followed.owned (List.mem_of_getElem? hphase) hid, hbeat.starts h.landings⟩

theorem Tracked.unchanged_run (h : Tracked s phases) (hid : Concluded phases s id)
    (hrun : Reaches State.step State.Ordered s t) :
    ∃ phases', Tracked t phases' ∧ Concluded phases' t id ∧
      updatesSince t.store.log id = updatesSince s.store.log id ∧ allStarts s.store.log ⊆ allStarts t.store.log := by
  apply hrun.invariant (fun t => ∃ phases', Tracked t phases' ∧ Concluded phases' t id ∧
    updatesSince t.store.log id = updatesSince s.store.log id ∧ allStarts s.store.log ⊆ allStarts t.store.log)
  · exact ⟨phases, h, hid, rfl, List.Subset.refl _⟩
  · rintro t a t' ⟨phases', ht, hconcluded, hupdates, hstarts⟩ hordered hstep
    obtain ⟨phases'', hchange, ht'⟩ := ht.step hordered hstep
    obtain ⟨hconcluded', hupdates', hstarts'⟩ := ht.unchanged hchange hconcluded
    exact ⟨phases'', ht', hconcluded', hupdates'.trans hupdates, fun _ hst => hstarts' (hstarts hst)⟩

/-- Where no component ends a crawl before those behind it have saved it, a
crawl that is stored with a terminal status stays as it is, and one that all
its components have saved is stored with the status it finished with. -/
theorem crawl_stays_finished (hs : Reaches State.step State.Ordered (State.initial : State rt) s)
    (ht : Reaches State.step State.Ordered s t) :
    (∀ c c', s.Stores c → (∃ status : CrawlStatus, status.Ends ∧ c.values .status = .str status.value) →
      t.Stores c' → c'.id = c.id → c' = c) ∧
    ∀ c component correlationId url status, t.Stores c →
      .crawlFinish c.id component correlationId url status ∈ t.events →
      (∀ w ∈ t.work, w.crawl = some c.id → w.save = .landed) → c.values .status = .str status.value := by
  obtain ⟨phases, hsp⟩ := tracked_reached hs
  obtain ⟨phases', htp⟩ := tracked_reached (hs.trans ht)
  constructor
  · rintro c c' hc ⟨status, hends, hstatus⟩ hc' hid
    obtain ⟨phases'', htp', -, hupdates, hstarts⟩ :=
      hsp.unchanged_run (hsp.landings.concluded_of_status hc hends hstatus) ht
    obtain ⟨st, hst, hstid, hrecord⟩ := hsp.landings.record hc
    obtain ⟨st', hst', hstid', hrecord'⟩ := htp'.landings.record hc'
    obtain rfl := List.inj_on_of_nodup_map htp'.landings.recorded.ids hst' (hstarts hst)
      (hstid'.trans (hid.trans hstid.symm))
    rw [hrecord, hrecord', hid, hupdates]
  · intro c component correlationId url status hc hfinish hsaved
    obtain ⟨x, hx, hxf, hxs⟩ := htp.landings.finished c.id component correlationId url status hfinish
    obtain ⟨j, hj⟩ := List.mem_iff_getElem?.mp hx
    obtain ⟨hw, hphase⟩ := List.getElem?_zip_eq_some.mp hj
    obtain ⟨phase, hphase', hheld⟩ := Positions.forall₂_getElem? htp.followed.owned.held hw
    obtain rfl : phase = x.2 := Option.some.inj (hphase'.symm.trans hphase)
    have hcrawl : x.1.crawl = some c.id := by rw [hheld.crawl, hxf]; rfl
    rw [htp.landings.status hc, hxs (hsaved x.1 (List.mem_of_getElem? hw) hcrawl), Option.getD_some]

/-! The Downloader saves a page before the Storage does, and after it. -/

def Crawl.statusText (c : Crawl) : String :=
  match c.values .status with
  | .str text => text
  | _ => ""

def State.shows (s : State rt) (id text : String) : Bool :=
  s.store.documents.any (fun d => d.crawls.any (fun c => c.id = id && (text ≠ "" && c.statusText = text)))

theorem stores_of_shows {text : String} (h : s.shows id text = true) :
    ∃ c, s.Stores c ∧ c.id = id ∧ c.values .status = .str text := by
  simp only [State.shows, List.any_eq_true, Bool.and_eq_true, decide_eq_true_eq] at h
  obtain ⟨d, hd, c, hc, hid, hne, htext⟩ := h
  refine ⟨c, ⟨d, hd, hc⟩, hid, ?_⟩
  unfold Crawl.statusText at htext
  split at htext
  · rename_i hstatus
    rw [hstatus, htext]
  · exact absurd htext.symm hne

def State.landedTest (s : State rt) (id : String) : Bool := s.work.all (fun w => w.crawl ≠ some id || w.save = .landed)

theorem landed_of_test (h : s.landedTest id = true) : ∀ w ∈ s.work, w.crawl = some id → w.save = .landed := by
  simp only [State.landedTest, List.all_eq_true, Bool.or_eq_true, decide_eq_true_eq] at h
  exact fun w hw hcrawl => (h w hw).resolve_left (fun hne => hne hcrawl)

/-- A finish event as a crawl and its status. -/
def Event.finish? : Event rt → Option (String × CrawlStatus)
  | .crawlFinish id _ _ _ status => some (id, status)
  | _ => none

def State.finishTest (s : State rt) (id : String) (status : CrawlStatus) : Bool :=
  decide ((id, status) ∈ s.events.filterMap Event.finish?)

theorem finish_of_test {status : CrawlStatus} (h : s.finishTest id status = true) :
    ∃ c correlationId url, .crawlFinish id c correlationId url status ∈ s.events := by
  obtain ⟨e, he, hid⟩ := List.mem_filterMap.mp (of_decide_eq_true h)
  cases e with
  | crawlFinish id' c correlationId url status' =>
    cases hid
    exact ⟨c, correlationId, url, he⟩
  | _ => cases hid

/-- The test of a save in order. -/
def State.orderlyTest (s : State rt) : Action rt → Bool
  | .answer i _ _ =>
    match s.work[i]? with
    | some w =>
      match w.awaited with
      | some (.updateCrawl u) =>
        s.work.all (fun w' => w'.crawl ≠ some u.crawlId || w.component.stage ≤ w'.component.stage || w'.save ≠ .due)
      | _ => true
    | none => true
  | _ => true

theorem orderly_of_test {a : Action rt} (h : s.orderlyTest a = true) : s.Orderly a := by
  cases a with
  | answer i reply applied =>
    intro w u hw hawaited _ w' hw' hcrawl hstage
    rw [State.orderlyTest, hw] at h
    simp only [hawaited, List.all_eq_true, Bool.or_eq_true, decide_eq_true_eq] at h
    obtain (hother | hlater) | hsaved := h w' hw'
    · exact absurd hcrawl hother
    · exact absurd hstage (Nat.not_lt.mpr hlater)
    · exact hsaved
  | _ => trivial

def State.orderedTest (s : State rt) (a : Action rt) : Bool := s.freshTest a && s.orderlyTest a

theorem ordered_of_test {a : Action rt} (h : s.orderedTest a = true) : s.Ordered a := by
  rw [State.orderedTest, Bool.and_eq_true] at h
  exact ⟨fresh_of_test h.1, orderly_of_test h.2⟩

end

def succeededTest (s : State asciiRuntime) : Bool := s.shows "0c" CrawlStatus.succeeded.value && s.finishTest "0c" .succeeded

theorem crawl_stays_finished_page : ∃ s c, Reaches State.step State.Ordered (State.initial : State asciiRuntime) s ∧
    s.Stores c ∧ c.values .status = .str CrawlStatus.succeeded.value := by
  obtain ⟨s, hs, htest⟩ := exists_reaches State.step State.initial State.orderedTest (fun _ _ => ordered_of_test) storedPage
    (fun s => succeededTest s && s.landedTest "0c") (by decide +kernel)
  simp only [succeededTest, Bool.and_eq_true] at htest
  obtain ⟨⟨hshows, hfinish⟩, hlanded⟩ := htest
  obtain ⟨c, hc, hid, -⟩ := stores_of_shows hshows
  obtain ⟨component, correlationId, url, hfinish⟩ := finish_of_test hfinish
  rw [← hid] at hfinish hlanded
  exact ⟨s, c, hs, hc, (crawl_stays_finished hs .refl).2 c component correlationId url .succeeded hc hfinish
    (landed_of_test hlanded)⟩

/-- The Storage has finished the crawl, and the Downloader has announced that
it is done with it. -/
def lateSave : List (Action asciiRuntime) :=
  downloadedPage ++ [.deliver 0 exampleDefaults] ++ exampleAnswers 2 10 ++
    [.deliver 0 exampleDefaults] ++ exampleAnswers 3 7 ++ exampleAnswers 1 2

/-- The save of the Downloader puts the crawl back. -/
def reopens (s : State asciiRuntime) : Bool :=
  let save : Action asciiRuntime := .answer 1 exampleReply true
  s.freshTest save &&
    (s.step save).any (fun t => t.landedTest "0c" && t.shows "0c" CrawlStatus.inProgress.value)

theorem finished_crawl_reopened : ∃ s t : State asciiRuntime, ∃ c c' component correlationId url,
    Reaches State.step State.Fresh State.initial s ∧ Reaches State.step State.Fresh s t ∧
      s.Stores c ∧ c.values .status = .str CrawlStatus.succeeded.value ∧
      .crawlFinish c.id component correlationId url .succeeded ∈ s.events ∧
      t.Stores c' ∧ c'.id = c.id ∧ c'.values .status = .str CrawlStatus.inProgress.value ∧
      ∀ w ∈ t.work, w.crawl = some c.id → w.save = .landed := by
  obtain ⟨s, hs, htest⟩ := exists_reaches State.step State.initial State.freshTest (fun _ _ => fresh_of_test) lateSave
    (fun s => succeededTest s && reopens s) (by decide +kernel)
  simp only [succeededTest, reopens, Bool.and_eq_true, Option.any_eq_true] at htest
  obtain ⟨⟨hshows, hfinish⟩, hfresh, t, ht, hlanded, hshows'⟩ := htest
  obtain ⟨c, hc, hid, hstatus⟩ := stores_of_shows hshows
  obtain ⟨component, correlationId, url, hfinish⟩ := finish_of_test hfinish
  obtain ⟨c', hc', hid', hstatus'⟩ := stores_of_shows hshows'
  rw [← hid] at hfinish hlanded hid'
  exact ⟨s, t, c, c', component, correlationId, url, hs, .tail .refl (fresh_of_test hfresh) ht, hc, hstatus, hfinish,
    hc', hid', hstatus', landed_of_test hlanded⟩

end Linksurf.Pipeline
