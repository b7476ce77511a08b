import Linksurf.Dict
import Linksurf.Execution
import Linksurf.IsoFormat
import Linksurf.Json
import Linksurf.Urls

/-!
# The crawl history of the urls collection

`start_crawl` and `update_crawl`. A call of `update_crawl` is one update that
overwrites the entry of its component, or that and a second one that appends an
entry; in between other calls may run. A log keeps what took effect, in order,
and the stored records are read off it.
-/
namespace Linksurf.Pipeline

open Dicts (Dict)
open Execution
open IsoFormat (DateTime)

/-- `ComponentExecution`. -/
structure ComponentExecution where
  component : String
  rules : List String
  deduplicator : Option String
  middlewares : List String
  filters : List String
  retries : Int := 0
  error : Option String := none
  exception : Option String := none
  retriable : Option Bool := none
  startedAt : Option DateTime := none
  finishedAt : Option DateTime := none
  deriving DecidableEq

/-- The attributes of a `Crawl` besides its id and its components. -/
inductive CrawlField where
  | status | request | response | content | redirects | metadata | startedAt | finishedAt
  deriving DecidableEq

/-- A stored value; timestamps are stored as such. -/
abbrev FieldValue := Json.Value DateTime

structure Crawl where
  id : String
  components : List ComponentExecution
  values : CrawlField → FieldValue

/-- The arguments of `update_crawl`. -/
structure Update where
  crawlId : String
  execution : ComponentExecution
  fields : Dict CrawlField FieldValue

/-- A document of the collection with its crawl history. -/
structure Document where
  hash : String
  crawls : List Crawl

namespace Crawl

def hasComponent (c : Crawl) (component : String) : Bool := c.components.any (fun e => e.component = component)

/-- `$set` of the crawl-level fields. -/
def set (c : Crawl) (fields : Dict CrawlField FieldValue) : Crawl :=
  { c with values := fun field => (fields.get? field).getD (c.values field) }

/-- The first update: fields, and every entry of the component. -/
def overwrite (u : Update) (c : Crawl) : Crawl :=
  { c.set u.fields with
    components := c.components.map (fun e => if e.component = u.execution.component then u.execution else e) }

/-- The second update: fields, and a new entry. -/
def append (u : Update) (c : Crawl) : Crawl :=
  { c.set u.fields with components := c.components ++ [u.execution] }

end Crawl

namespace Document

def hasCrawl (d : Document) (id : String) : Bool := d.crawls.any (fun c => c.id = id)

/-- The array filter `crawl.id`. -/
def onCrawl (id : String) (f : Crawl → Crawl) (d : Document) : Document :=
  { d with crawls := d.crawls.map (fun c => if c.id = id then f c else c) }

/-- The `$elemMatch` of the first update. -/
def hasExecution (u : Update) (d : Document) : Bool :=
  d.crawls.any (fun c => c.id = u.crawlId && c.hasComponent u.execution.component)

/-- `$push` with `$slice`. -/
def push (c : Crawl) (d : Document) : Document :=
  { d with crawls := (d.crawls ++ [c]).rtake MAX_CRAWL_HISTORY_PER_URL }

end Document

/-- `update_one`: the first document that matches. -/
def updateOne (filter : Document → Bool) (f : Document → Document) : List Document → List Document
  | [] => []
  | d :: ds => if filter d then f d :: ds else d :: updateOne filter f ds

/-- A crawl as it was started. -/
structure Start where
  hash : String
  id : String
  values : CrawlField → FieldValue

/-- What took effect. -/
inductive Entry where
  | started (start : Start)
  | landed (update : Update)

structure CrawlStore where
  documents : List Document
  pending : List Update
  log : List Entry

/-- The calls; `append` is the second update of the call waiting at position
`i`, after its first one matched nothing. -/
inductive StoreCall where
  | registerUrl (hash : String)
  | startCrawl (start : Start)
  | updateCrawl (u : Update)
  | append (i : Nat)

namespace CrawlStore

def initial : CrawlStore := ⟨[], [], []⟩

def registerUrl (s : CrawlStore) (hash : String) : CrawlStore :=
  if s.documents.any (fun d => d.hash = hash) then s else { s with documents := s.documents ++ [⟨hash, []⟩] }

/-- Where no document matches, the call raises and nothing is changed. -/
def startCrawl (s : CrawlStore) (start : Start) : CrawlStore :=
  if s.documents.any (fun d => d.hash = start.hash) then
    { s with
      documents := updateOne (fun d => d.hash = start.hash) (Document.push ⟨start.id, [], start.values⟩) s.documents
      log := s.log ++ [.started start] }
  else s

def updateCrawl (s : CrawlStore) (u : Update) : CrawlStore :=
  if s.documents.any (fun d => d.hasExecution u) then
    { s with
      documents := updateOne (fun d => d.hasExecution u) (Document.onCrawl u.crawlId (Crawl.overwrite u)) s.documents
      log := s.log ++ [.landed u] }
  else { s with pending := s.pending ++ [u] }

def append (s : CrawlStore) (i : Nat) (u : Update) : CrawlStore where
  documents := updateOne (fun d => d.hasCrawl u.crawlId) (Document.onCrawl u.crawlId (Crawl.append u)) s.documents
  pending := s.pending.eraseIdx i
  log := s.log ++ [.landed u]

def step (s : CrawlStore) : StoreCall → Option CrawlStore
  | .registerUrl hash => some (s.registerUrl hash)
  | .startCrawl start => some (s.startCrawl start)
  | .updateCrawl u => some (s.updateCrawl u)
  | .append i => s.pending[i]?.map (s.append i)

end CrawlStore

/-! ## What the log says -/

def Entry.start? : Entry → Option Start
  | .started start => some start
  | .landed _ => none

/-- All crawls started so far. -/
def allStarts (log : List Entry) : List Start := log.filterMap Entry.start?

/-- The crawls started for a URL, in order. -/
def starts (log : List Entry) (hash : String) : List Start := (allStarts log).filter (fun st => st.hash = hash)

/-- The updates of a crawl after an entry of the log. -/
def Entry.since (id : String) (us : List Update) : Entry → List Update
  | .started start => if start.id = id then [] else us
  | .landed u => if u.crawlId = id then us ++ [u] else us

/-- The updates of a crawl since its start. -/
def updatesSince (log : List Entry) (id : String) : List Update := log.foldl (Entry.since id) []

def latestExecution (us : List Update) (component : String) : Option ComponentExecution :=
  ((us.map (fun u => u.execution)).filter (fun e => e.component = component)).getLast?

def latestValue (us : List Update) (field : CrawlField) : Option FieldValue :=
  (us.filterMap (fun u => u.fields.get? field)).getLast?

/-- No id is started twice, and no call starts while one for the same crawl and
component waits. -/
def CrawlStore.Separate (s : CrawlStore) : StoreCall → Prop
  | .startCrawl start => ∀ st ∈ allStarts s.log, st.id ≠ start.id
  | .updateCrawl u => ∀ v ∈ s.pending, v.crawlId = u.crawlId → v.execution.component ≠ u.execution.component
  | _ => True

/-! ## The log grows -/

theorem allStarts_started (log : List Entry) (st : Start) : allStarts (log ++ [.started st]) = allStarts log ++ [st] := by
  simp [allStarts, Entry.start?]

theorem allStarts_landed (log : List Entry) (u : Update) : allStarts (log ++ [.landed u]) = allStarts log := by
  simp [allStarts, Entry.start?]

theorem starts_started (log : List Entry) (st : Start) (hash : String) :
    starts (log ++ [.started st]) hash = starts log hash ++ (if st.hash = hash then [st] else []) := by
  rw [starts, allStarts_started, List.filter_append, starts]
  congr 1
  split
  · rename_i h
    simp [h]
  · rename_i h
    simp [h]

theorem starts_landed (log : List Entry) (u : Update) (hash : String) :
    starts (log ++ [.landed u]) hash = starts log hash := by rw [starts, allStarts_landed, starts]

theorem updatesSince_started (log : List Entry) (st : Start) (id : String) :
    updatesSince (log ++ [.started st]) id = if st.id = id then [] else updatesSince log id := by
  simp [updatesSince, Entry.since]

theorem updatesSince_landed (log : List Entry) (u : Update) (id : String) :
    updatesSince (log ++ [.landed u]) id =
      if u.crawlId = id then updatesSince log id ++ [u] else updatesSince log id := by
  simp [updatesSince, Entry.since]

theorem latestExecution_concat (us : List Update) (u : Update) (component : String) :
    latestExecution (us ++ [u]) component =
      if u.execution.component = component then some u.execution else latestExecution us component := by
  unfold latestExecution
  split
  · rename_i h
    simp [h]
  · rename_i h
    simp [h]

theorem latestValue_concat (us : List Update) (u : Update) (field : CrawlField) :
    latestValue (us ++ [u]) field = (u.fields.get? field).or (latestValue us field) := by
  unfold latestValue
  cases h : u.fields.get? field <;> simp [h]

/-! ## A crawl and its updates -/

namespace Crawl

/-- What an update makes of the crawl it is about. -/
def land (u : Update) (c : Crawl) : Crawl :=
  if c.hasComponent u.execution.component then c.overwrite u else c.append u

@[simp] theorem land_id (u : Update) (c : Crawl) : (c.land u).id = c.id := by
  unfold land
  split <;> rfl

theorem land_values (u : Update) (c : Crawl) (field : CrawlField) :
    (c.land u).values field = (u.fields.get? field).getD (c.values field) := by
  unfold land
  split <;> rfl

theorem hasComponent_iff {c : Crawl} {component : String} :
    c.hasComponent component = true ↔ ∃ e ∈ c.components, e.component = component := by simp [hasComponent]

theorem mem_land {u : Update} {c : Crawl} {e : ComponentExecution} :
    e ∈ (c.land u).components ↔
      e = u.execution ∨ (e ∈ c.components ∧ e.component ≠ u.execution.component) := by
  unfold land
  split
  · rename_i h
    obtain ⟨old, hold, hcomponent⟩ := hasComponent_iff.mp h
    simp only [overwrite, set, List.mem_map]
    constructor
    · rintro ⟨x, hx, rfl⟩
      split
      · exact .inl rfl
      · rename_i hne
        exact .inr ⟨hx, hne⟩
    · rintro (rfl | ⟨he, hne⟩)
      · exact ⟨old, hold, if_pos hcomponent⟩
      · exact ⟨e, he, if_neg hne⟩
  · rename_i h
    have hnone : ∀ x ∈ c.components, x.component ≠ u.execution.component :=
      fun x hx he => h (hasComponent_iff.mpr ⟨x, hx, he⟩)
    simp only [append, set, List.mem_append, List.mem_singleton]
    constructor
    · rintro (he | he)
      · exact .inr ⟨he, hnone e he⟩
      · exact .inl he
    · rintro (he | he)
      · exact .inr he
      · exact .inl he.1

theorem hasComponent_land {u : Update} {c : Crawl} {component : String} :
    (c.land u).hasComponent component = true ↔
      c.hasComponent component = true ∨ u.execution.component = component := by
  simp only [hasComponent_iff, mem_land]
  constructor
  · rintro ⟨e, rfl | he, hc⟩
    · exact .inr hc
    · exact .inl ⟨e, he.1, hc⟩
  · rintro (⟨e, he, hc⟩ | hc)
    · by_cases hu : e.component = u.execution.component
      · exact ⟨u.execution, .inl rfl, by rw [← hu, hc]⟩
      · exact ⟨e, .inr ⟨he, hu⟩, hc⟩
    · exact ⟨u.execution, .inl rfl, hc⟩

theorem land_nodup {u : Update} {c : Crawl} (h : (c.components.map (fun e => e.component)).Nodup) :
    ((c.land u).components.map (fun e => e.component)).Nodup := by
  unfold land
  split
  · have hnames : (c.overwrite u).components.map (fun e => e.component) = c.components.map (fun e => e.component) := by
      simp only [overwrite, List.map_map]
      apply List.map_congr_left
      intro e _
      simp only [Function.comp_apply]
      split
      · rename_i he
        exact he.symm
      · rfl
    rw [hnames]
    exact h
  · rename_i hnone
    simp only [append, set, List.map_append, List.map_cons, List.map_nil]
    rw [List.nodup_append']
    refine ⟨h, by simp, ?_⟩
    rw [List.disjoint_singleton]
    intro hmem
    obtain ⟨e, he, hc⟩ := List.mem_map.mp hmem
    exact hnone (hasComponent_iff.mpr ⟨e, he, hc⟩)

/-- A started crawl after its updates. -/
def record (st : Start) (us : List Update) : Crawl := us.foldl (fun c u => c.land u) ⟨st.id, [], st.values⟩

theorem record_concat (st : Start) (us : List Update) (u : Update) :
    record st (us ++ [u]) = (record st us).land u := by simp [record]

@[simp] theorem record_id (st : Start) (us : List Update) : (record st us).id = st.id := by
  induction us using List.reverseRecOn with
  | nil => rfl
  | append_singleton us u ih => rw [record_concat, land_id, ih]

/-- One entry for each component. -/
theorem record_nodup (st : Start) (us : List Update) :
    ((record st us).components.map (fun e => e.component)).Nodup := by
  induction us using List.reverseRecOn with
  | nil => simp [record]
  | append_singleton us u ih =>
    rw [record_concat]
    exact land_nodup ih

/-- The entry of a component is its most recent execution. -/
theorem mem_record {st : Start} {us : List Update} {e : ComponentExecution} :
    e ∈ (record st us).components ↔ latestExecution us e.component = some e := by
  induction us using List.reverseRecOn with
  | nil => simp [record, latestExecution]
  | append_singleton us u ih =>
    rw [record_concat, mem_land, latestExecution_concat, ih]
    by_cases hu : u.execution.component = e.component
    · rw [if_pos hu]
      constructor
      · rintro (he | ⟨-, hne⟩)
        · rw [he]
        · exact absurd hu.symm hne
      · intro he
        exact .inl (Option.some.inj he).symm
    · rw [if_neg hu]
      constructor
      · rintro (he | he)
        · exact absurd (congrArg (fun e => e.component) he).symm hu
        · exact he.1
      · exact fun he => .inr ⟨he, fun h => hu h.symm⟩

/-- A field holds the last value set, or the one of the start. -/
theorem record_values (st : Start) (us : List Update) (field : CrawlField) :
    (record st us).values field = (latestValue us field).getD (st.values field) := by
  induction us using List.reverseRecOn with
  | nil => rfl
  | append_singleton us u ih =>
    rw [record_concat, land_values, latestValue_concat, ih]
    cases u.fields.get? field <;> rfl

end Crawl

/-! ## One document at most -/

theorem updateOne_eq_map {filter : Document → Bool} {f : Document → Document} {ds : List Document}
    (h : ds.Pairwise (fun d e => filter d = true → filter e = false)) :
    updateOne filter f ds = ds.map (fun d => if filter d then f d else d) := by
  induction ds with
  | nil => rfl
  | cons d ds ih =>
    obtain ⟨hd, hds⟩ := List.pairwise_cons.mp h
    rw [updateOne, List.map_cons, ih hds]
    split
    · rename_i hfilter
      congr 1
      conv_lhs => rw [← List.map_id ds]
      apply List.map_congr_left
      intro e he
      simp [hd e he hfilter]
    · rfl

namespace Document

theorem hasCrawl_iff {d : Document} {id : String} : d.hasCrawl id = true ↔ ∃ c ∈ d.crawls, c.id = id := by
  simp [hasCrawl]

theorem hasExecution_iff {d : Document} {u : Update} : d.hasExecution u = true ↔
    ∃ c ∈ d.crawls, c.id = u.crawlId ∧ c.hasComponent u.execution.component = true := by simp [hasExecution]

theorem onCrawl_of_not {d : Document} {id : String} (h : d.hasCrawl id = false) (f : Crawl → Crawl) :
    d.onCrawl id f = d := by
  have hmap : d.crawls.map (fun c => if c.id = id then f c else c) = d.crawls := by
    conv_rhs => rw [← List.map_id d.crawls]
    apply List.map_congr_left
    intro c hc
    have hne : c.id ≠ id := by
      intro he
      rw [hasCrawl_iff.mpr ⟨c, hc, he⟩] at h
      cases h
    exact if_neg hne
  rw [onCrawl, hmap]

theorem onCrawl_congr {d : Document} {id : String} {f g : Crawl → Crawl}
    (h : ∀ c ∈ d.crawls, c.id = id → f c = g c) : d.onCrawl id f = d.onCrawl id g := by
  have hmap : d.crawls.map (fun c => if c.id = id then f c else c) =
      d.crawls.map (fun c => if c.id = id then g c else c) := by
    apply List.map_congr_left
    intro c hc
    split
    · rename_i hid
      exact h c hc hid
    · rfl
  rw [onCrawl, onCrawl, hmap]

end Document

namespace CrawlStore

variable {s : CrawlStore}

/-- The documents are what the log says, and a call waits only where its
component has no entry. -/
structure Recorded (s : CrawlStore) : Prop where
  hashes : (s.documents.map (fun d => d.hash)).Nodup
  ids : ((allStarts s.log).map (fun st => st.id)).Nodup
  known : ∀ st ∈ allStarts s.log, ∃ d ∈ s.documents, d.hash = st.hash
  crawls : ∀ d ∈ s.documents, d.crawls = ((starts s.log d.hash).rtake MAX_CRAWL_HISTORY_PER_URL).map
    (fun st => Crawl.record st (updatesSince s.log st.id))
  waiting : ∀ u ∈ s.pending, ∀ d ∈ s.documents, d.hasExecution u = false
  separate : s.pending.Pairwise (fun u v => v.crawlId = u.crawlId → v.execution.component ≠ u.execution.component)

theorem mem_starts {log : List Entry} {hash : String} {st : Start} :
    st ∈ starts log hash ↔ st ∈ allStarts log ∧ st.hash = hash := by simp [starts]

theorem mem_rtake {α : Type} {l : List α} {n : Nat} {a : α} (h : a ∈ l.rtake n) : a ∈ l := List.mem_of_mem_drop h

/-- A stored crawl was started for the URL of its document. -/
theorem Recorded.start (h : s.Recorded) {d : Document} (hd : d ∈ s.documents) {c : Crawl} (hc : c ∈ d.crawls) :
    ∃ st ∈ allStarts s.log, st.hash = d.hash ∧ c = Crawl.record st (updatesSince s.log st.id) := by
  rw [h.crawls d hd] at hc
  obtain ⟨st, hst, rfl⟩ := List.mem_map.mp hc
  obtain ⟨hall, hhash⟩ := mem_starts.mp (mem_rtake hst)
  exact ⟨st, hall, hhash, rfl⟩

/-- A crawl is stored once. -/
theorem Recorded.unique (h : s.Recorded) {d e : Document} (hd : d ∈ s.documents) (he : e ∈ s.documents)
    {c c' : Crawl} (hc : c ∈ d.crawls) (hc' : c' ∈ e.crawls) (hid : c.id = c'.id) : d = e ∧ c = c' := by
  obtain ⟨st, hst, hhash, rfl⟩ := h.start hd hc
  obtain ⟨st', hst', hhash', rfl⟩ := h.start he hc'
  rw [Crawl.record_id, Crawl.record_id] at hid
  obtain rfl := List.inj_on_of_nodup_map h.ids hst hst' hid
  exact ⟨List.inj_on_of_nodup_map h.hashes hd he (hhash.symm.trans hhash'), rfl⟩

/-- The first match is the only one for a filter that asks for a crawl. -/
theorem Recorded.updateOne_eq (h : s.Recorded) {id : String} {filter : Document → Bool}
    (hfilter : ∀ d, filter d = true → d.hasCrawl id = true) (f : Document → Document) :
    updateOne filter f s.documents = s.documents.map (fun d => if filter d then f d else d) := by
  apply updateOne_eq_map
  apply h.hashes.of_map.pairwise_of_forall_ne
  intro d hd e he hne hdf
  by_contra hef
  obtain ⟨c, hc, hid⟩ := Document.hasCrawl_iff.mp (hfilter d hdf)
  obtain ⟨c', hc', hid'⟩ := Document.hasCrawl_iff.mp (hfilter e (by simpa using hef))
  exact hne (h.unique hd he hc hc' (hid.trans hid'.symm)).1

/-- What a call about a crawl leaves of the documents: its crawl is updated
wherever it is stored. -/
def landed (s : CrawlStore) (u : Update) : List Document :=
  s.documents.map (Document.onCrawl u.crawlId (Crawl.land u))

theorem Recorded.overwrite_eq (h : s.Recorded) {u : Update} (hu : s.documents.any (fun d => d.hasExecution u) = true) :
    updateOne (fun d => d.hasExecution u) (Document.onCrawl u.crawlId (Crawl.overwrite u)) s.documents =
      s.landed u := by
  have hcrawl (d : Document) (hd : d.hasExecution u = true) : d.hasCrawl u.crawlId = true := by
    obtain ⟨c, hc, hid, -⟩ := Document.hasExecution_iff.mp hd
    exact Document.hasCrawl_iff.mpr ⟨c, hc, hid⟩
  obtain ⟨e, he, hmatch⟩ := List.any_eq_true.mp hu
  obtain ⟨c, hc, hid, hcomponent⟩ := Document.hasExecution_iff.mp hmatch
  rw [h.updateOne_eq hcrawl, landed]
  apply List.map_congr_left
  intro d hd
  have hland : ∀ c' ∈ d.crawls, c'.id = u.crawlId → c'.overwrite u = c'.land u := by
    intro c' hc' hid'
    obtain ⟨rfl, rfl⟩ := h.unique he hd hc hc' (hid.trans hid'.symm)
    rw [Crawl.land, if_pos hcomponent]
  split
  · exact Document.onCrawl_congr hland
  · rename_i hnot
    have hno : d.hasCrawl u.crawlId = false := by
      by_contra hyes
      obtain ⟨c', hc', hid'⟩ := Document.hasCrawl_iff.mp (by simpa using hyes)
      obtain ⟨rfl, -⟩ := h.unique he hd hc hc' (hid.trans hid'.symm)
      exact hnot hmatch
    rw [Document.onCrawl_of_not hno]

theorem Recorded.append_eq (h : s.Recorded) {u : Update} (hu : u ∈ s.pending) :
    updateOne (fun d => d.hasCrawl u.crawlId) (Document.onCrawl u.crawlId (Crawl.append u)) s.documents =
      s.landed u := by
  rw [h.updateOne_eq (fun _ hd => hd), landed]
  apply List.map_congr_left
  intro d hd
  have hland : ∀ c ∈ d.crawls, c.id = u.crawlId → c.append u = c.land u := by
    intro c hc hid
    have hnone : ¬ c.hasComponent u.execution.component = true := by
      intro hcomponent
      have := Document.hasExecution_iff.mpr ⟨c, hc, hid, hcomponent⟩
      rw [h.waiting u hu d hd] at this
      cases this
    rw [Crawl.land, if_neg hnone]
  split
  · exact Document.onCrawl_congr hland
  · rename_i hno
    rw [Document.onCrawl_of_not (by simpa using hno)]

theorem hasExecution_land {u v : Update} {d : Document}
    (hne : v.crawlId = u.crawlId → v.execution.component ≠ u.execution.component) (h : d.hasExecution v = false) :
    (d.onCrawl u.crawlId (Crawl.land u)).hasExecution v = false := by
  by_contra hyes
  obtain ⟨c', hc', hid, hcomponent⟩ := Document.hasExecution_iff.mp (by simpa using hyes)
  obtain ⟨c, hc, rfl⟩ := List.mem_map.mp hc'
  have hold : ¬ (c.id = v.crawlId ∧ c.hasComponent v.execution.component = true) := by
    intro hboth
    rw [Document.hasExecution_iff.mpr ⟨c, hc, hboth⟩] at h
    cases h
  split at hid
  · rename_i hu
    rw [if_pos hu] at hcomponent
    rw [Crawl.land_id] at hid
    cases Crawl.hasComponent_land.mp hcomponent with
    | inl hcomponent => exact hold ⟨hid, hcomponent⟩
    | inr hcomponent => exact hne (hid.symm.trans hu) hcomponent.symm
  · rename_i hu
    rw [if_neg hu] at hcomponent
    exact hold ⟨hid, hcomponent⟩

/-- An update takes effect. -/
theorem Recorded.land (h : s.Recorded) {u : Update} {pending : List Update} (hsub : pending.Sublist s.pending)
    (hne : ∀ v ∈ pending, v.crawlId = u.crawlId → v.execution.component ≠ u.execution.component) :
    CrawlStore.Recorded ⟨s.landed u, pending, s.log ++ [.landed u]⟩ := by
  have hhashes : (s.landed u).map (fun d => d.hash) = s.documents.map (fun d => d.hash) := by
    rw [landed, List.map_map]
    rfl
  constructor
  · rw [hhashes]
    exact h.hashes
  · rw [allStarts_landed]
    exact h.ids
  · intro st hst
    rw [allStarts_landed] at hst
    obtain ⟨d, hd, hhash⟩ := h.known st hst
    exact ⟨_, List.mem_map_of_mem hd, hhash⟩
  · intro d' hd'
    obtain ⟨d, hd, rfl⟩ := List.mem_map.mp hd'
    change d.crawls.map _ = ((starts (s.log ++ [.landed u]) d.hash).rtake _).map _
    rw [starts_landed, h.crawls d hd, List.map_map]
    apply List.map_congr_left
    intro st _
    simp only [Function.comp_apply, Crawl.record_id, updatesSince_landed]
    by_cases hid : u.crawlId = st.id
    · rw [if_pos hid.symm, if_pos hid, Crawl.record_concat]
    · rw [if_neg (fun he => hid he.symm), if_neg hid]
  · intro v hv d' hd'
    obtain ⟨d, hd, rfl⟩ := List.mem_map.mp hd'
    exact hasExecution_land (hne v hv) (h.waiting v (hsub.subset hv) d hd)
  · exact h.separate.sublist hsub

theorem rtake_map {α β : Type} (f : α → β) (l : List α) (n : Nat) : (l.map f).rtake n = (l.rtake n).map f := by
  simp [List.rtake, List.map_drop]

/-- The last of the last. -/
theorem rtake_rtake_concat {α : Type} (l : List α) (a : α) (n : Nat) :
    (l.rtake (n + 1) ++ [a]).rtake (n + 1) = (l ++ [a]).rtake (n + 1) := by
  rw [List.rtake_concat_succ, List.rtake_concat_succ]
  congr 1
  simp only [List.rtake, List.drop_drop, List.length_drop]
  congr 1
  omega

theorem rtake_map_concat {α β : Type} (f : α → β) (l : List α) (a : α) {n : Nat} (hn : 0 < n) :
    ((l.rtake n).map f ++ [f a]).rtake n = ((l ++ [a]).rtake n).map f := by
  obtain ⟨m, rfl⟩ := Nat.exists_eq_add_one.mpr hn
  have hmap : (l.rtake (m + 1)).map f ++ [f a] = (l.rtake (m + 1) ++ [a]).map f := by simp
  rw [hmap, rtake_map, rtake_rtake_concat]

/-- What a new crawl leaves of the documents. -/
theorem Recorded.push_eq (h : s.Recorded) (start : Start) :
    updateOne (fun d => d.hash = start.hash) (Document.push ⟨start.id, [], start.values⟩) s.documents =
      s.documents.map (fun d => if d.hash = start.hash then d.push ⟨start.id, [], start.values⟩ else d) := by
  rw [updateOne_eq_map]
  · simp
  · apply h.hashes.of_map.pairwise_of_forall_ne
    intro d hd e he hne hdhash
    have hdhash : d.hash = start.hash := by simpa using hdhash
    apply decide_eq_false
    intro hehash
    exact hne (List.inj_on_of_nodup_map h.hashes hd he (hdhash.trans hehash.symm))

/-- A new crawl changes no record of the crawls before it. -/
theorem records_started {log : List Entry} {start : Start} (hnew : ∀ st ∈ allStarts log, st.id ≠ start.id) (hash : String) :
    ((starts log hash).rtake MAX_CRAWL_HISTORY_PER_URL).map
        (fun st => Crawl.record st (updatesSince (log ++ [.started start]) st.id)) =
      ((starts log hash).rtake MAX_CRAWL_HISTORY_PER_URL).map (fun st => Crawl.record st (updatesSince log st.id)) := by
  apply List.map_congr_left
  intro st hst
  have hold : st ∈ allStarts log := (mem_starts.mp (mem_rtake hst)).1
  rw [updatesSince_started, if_neg (fun he => hnew st hold he.symm)]

/-- A new crawl is started. -/
theorem Recorded.startCrawl (h : s.Recorded) {start : Start} (hnew : ∀ st ∈ allStarts s.log, st.id ≠ start.id) :
    (s.startCrawl start).Recorded := by
  unfold CrawlStore.startCrawl
  split
  case isFalse => exact h
  rename_i hexists
  rw [h.push_eq]
  have hhash (d : Document) :
      (if d.hash = start.hash then d.push ⟨start.id, [], start.values⟩ else d).hash = d.hash := by split <;> rfl
  constructor
  · have hhashes : (s.documents.map
        (fun d => if d.hash = start.hash then d.push ⟨start.id, [], start.values⟩ else d)).map (fun d => d.hash) =
        s.documents.map (fun d => d.hash) := by
      rw [List.map_map]
      exact List.map_congr_left (fun d _ => hhash d)
    rw [hhashes]
    exact h.hashes
  · rw [allStarts_started, List.map_append, List.nodup_append']
    refine ⟨h.ids, by simp, ?_⟩
    simpa using fun st hst => hnew st hst
  · intro st hst
    rw [allStarts_started, List.mem_append, List.mem_singleton] at hst
    have hfound : ∃ d ∈ s.documents, d.hash = st.hash := by
      cases hst with
      | inl hst => exact h.known st hst
      | inr hst =>
        rw [hst]
        simpa using hexists
    obtain ⟨d, hd, hst⟩ := hfound
    exact ⟨_, List.mem_map_of_mem hd, (hhash d).trans hst⟩
  · intro d' hd'
    obtain ⟨d, hd, rfl⟩ := List.mem_map.mp hd'
    simp only [hhash, starts_started]
    split
    · rename_i hd'
      have hnow : (⟨start.id, [], start.values⟩ : Crawl) =
          Crawl.record start (updatesSince (s.log ++ [.started start]) start.id) := by
        rw [updatesSince_started, if_pos rfl]
        rfl
      change (d.crawls ++ [_]).rtake MAX_CRAWL_HISTORY_PER_URL = _
      rw [if_pos hd'.symm, h.crawls d hd, ← records_started hnew, hnow]
      have hmax : 0 < MAX_CRAWL_HISTORY_PER_URL := by decide
      have hconcat := rtake_map_concat (fun st => Crawl.record st (updatesSince (s.log ++ [.started start]) st.id))
        (starts s.log d.hash) start hmax
      exact hconcat
    · rename_i hne
      rw [if_neg (fun he => hne he.symm), List.append_nil, records_started hnew]
      exact h.crawls d hd
  · intro u hu d' hd'
    obtain ⟨d, hd, rfl⟩ := List.mem_map.mp hd'
    split
    · by_contra hyes
      obtain ⟨c, hc, hid, hcomponent⟩ := Document.hasExecution_iff.mp (by simpa using hyes)
      have hc := mem_rtake hc
      rw [List.mem_append, List.mem_singleton] at hc
      cases hc with
      | inl hc =>
        have := Document.hasExecution_iff.mpr ⟨c, hc, hid, hcomponent⟩
        rw [h.waiting u hu d hd] at this
        cases this
      | inr hc =>
        rw [hc] at hcomponent
        cases hcomponent
    · exact h.waiting u hu d hd
  · exact h.separate

theorem Recorded.registerUrl (h : s.Recorded) (hash : String) : (s.registerUrl hash).Recorded := by
  unfold CrawlStore.registerUrl
  split
  · exact h
  rename_i hnew
  have hnew : ∀ d ∈ s.documents, d.hash ≠ hash := by simpa using hnew
  constructor
  · rw [List.map_append, List.nodup_append']
    refine ⟨h.hashes, by simp, ?_⟩
    simpa using fun d hd => hnew d hd
  · exact h.ids
  · intro st hst
    obtain ⟨d, hd, hh⟩ := h.known st hst
    exact ⟨d, List.mem_append_left _ hd, hh⟩
  · intro d hd
    cases List.mem_append.mp hd with
    | inl hd => exact h.crawls d hd
    | inr hd =>
      obtain rfl := List.mem_singleton.mp hd
      have hnone : starts s.log hash = [] := by
        apply List.eq_nil_iff_forall_not_mem.mpr
        intro st hst
        obtain ⟨hst, hhash⟩ := mem_starts.mp hst
        obtain ⟨d, hd, hh⟩ := h.known st hst
        exact hnew d hd (hh.trans hhash)
      rw [hnone]
      rfl
  · intro u hu d hd
    cases List.mem_append.mp hd with
    | inl hd => exact h.waiting u hu d hd
    | inr hd =>
      obtain rfl := List.mem_singleton.mp hd
      rfl
  · exact h.separate

theorem Recorded.updateCrawl (h : s.Recorded) {u : Update}
    (hne : ∀ v ∈ s.pending, v.crawlId = u.crawlId → v.execution.component ≠ u.execution.component) :
    (s.updateCrawl u).Recorded := by
  unfold CrawlStore.updateCrawl
  split
  · rename_i hmatch
    rw [h.overwrite_eq hmatch]
    exact h.land (List.Sublist.refl _) hne
  · rename_i hnone
    refine ⟨h.hashes, h.ids, h.known, h.crawls, ?_, ?_⟩
    · intro v hv d hd
      cases List.mem_append.mp hv with
      | inl hv => exact h.waiting v hv d hd
      | inr hv =>
        have hnone : ∀ d ∈ s.documents, d.hasExecution u = false := by simpa using hnone
        rw [List.mem_singleton.mp hv]
        exact hnone d hd
    · rw [List.pairwise_append]
      refine ⟨h.separate, List.pairwise_singleton .., ?_⟩
      intro v hv w hw
      obtain rfl := List.mem_singleton.mp hw
      exact fun hid => Ne.symm (hne v hv hid.symm)

theorem Recorded.append (h : s.Recorded) {i : Nat} {u : Update} (hu : s.pending[i]? = some u) :
    (s.append i u).Recorded := by
  unfold CrawlStore.append
  rw [h.append_eq (List.mem_of_getElem? hu)]
  apply h.land (List.eraseIdx_sublist ..)
  intro v hv hid
  obtain ⟨j, hji, hj⟩ := List.mem_eraseIdx_iff_getElem?.mp hv
  obtain ⟨hi', rfl⟩ := List.getElem?_eq_some_iff.mp hu
  obtain ⟨hj', rfl⟩ := List.getElem?_eq_some_iff.mp hj
  have hpair := List.pairwise_iff_getElem.mp h.separate
  cases Nat.lt_or_gt_of_ne hji with
  | inl hlt => exact Ne.symm (hpair j i hj' hi' hlt hid.symm)
  | inr hgt => exact hpair i j hi' hj' hgt hid

/-- Every call keeps the documents to the log. -/
theorem Recorded.step (h : s.Recorded) {call : StoreCall} {t : CrawlStore} (hsep : s.Separate call)
    (hstep : CrawlStore.step s call = some t) : t.Recorded := by
  cases call with
  | registerUrl hash => cases hstep; exact h.registerUrl hash
  | startCrawl start => cases hstep; exact h.startCrawl hsep
  | updateCrawl u => cases hstep; exact h.updateCrawl hsep
  | append i =>
    obtain ⟨u, hu, rfl⟩ := Option.map_eq_some_iff.mp hstep
    exact h.append hu

theorem recorded_initial : initial.Recorded where
  hashes := List.nodup_nil
  ids := List.nodup_nil
  known := by intro st hst; cases hst
  crawls := by intro d hd; cases hd
  waiting := by intro u hu; cases hu
  separate := .nil

end CrawlStore

/-! ## The history -/

/-- A crawl after the updates since its start: each component has one entry,
its most recent execution, and each field the value set last. -/
structure Crawl.Current (log : List Entry) (st : Start) (c : Crawl) : Prop where
  started : st.id = c.id
  once : (c.components.map (fun e => e.component)).Nodup
  latest : ∀ e, e ∈ c.components ↔ latestExecution (updatesSince log c.id) e.component = some e
  values : ∀ field, c.values field = (latestValue (updatesSince log c.id) field).getD (st.values field)

/-- The update a call is about to carry out. -/
def CrawlStore.update? (s : CrawlStore) : StoreCall → Option Update
  | .updateCrawl u => some u
  | .append i => s.pending[i]?
  | _ => none

/-- An update changes nothing but its crawl, and nothing at all where its crawl
is not stored. -/
structure Document.Framed (id : String) (ds es : List Document) : Prop where
  other : ∃ f : Crawl → Crawl, (∀ c, (f c).id = c.id) ∧ es = ds.map (Document.onCrawl id f)
  evicted : (∀ d ∈ ds, d.hasCrawl id = false) → es = ds

/-- Every URL keeps the crawls started last, each as its updates left it, and
an update leaves everything else alone. -/
structure CrawlStore.Kept (s : CrawlStore) : Prop where
  history : ∀ d ∈ s.documents,
    d.crawls.map (fun c => c.id) = ((starts s.log d.hash).rtake MAX_CRAWL_HISTORY_PER_URL).map (fun st => st.id)
  current : ∀ d ∈ s.documents, ∀ c ∈ d.crawls, ∃ st ∈ starts s.log d.hash, c.Current s.log st
  framed : ∀ call t u, s.update? call = some u → s.step call = some t →
    Document.Framed u.crawlId s.documents t.documents

namespace CrawlStore

variable {s : CrawlStore}

theorem framed_same (id : String) (ds : List Document) : Document.Framed id ds ds where
  other := by
    refine ⟨fun c => c, fun _ => rfl, ?_⟩
    conv_lhs => rw [← List.map_id ds]
    apply List.map_congr_left
    intro d _
    rw [Document.onCrawl]
    simp
  evicted := fun _ => rfl

theorem framed_landed (s : CrawlStore) (u : Update) : Document.Framed u.crawlId s.documents (s.landed u) where
  other := ⟨Crawl.land u, Crawl.land_id u, rfl⟩
  evicted := by
    intro h
    rw [landed]
    conv_rhs => rw [← List.map_id s.documents]
    apply List.map_congr_left
    exact fun d hd => Document.onCrawl_of_not (h d hd) _

theorem Recorded.kept (h : s.Recorded) : s.Kept where
  history := by
    intro d hd
    rw [h.crawls d hd, List.map_map]
    apply List.map_congr_left
    intro st _
    rw [Function.comp_apply, Crawl.record_id]
  current := by
    intro d hd c hc
    obtain ⟨st, hst, hhash, rfl⟩ := h.start hd hc
    refine ⟨st, mem_starts.mpr ⟨hst, hhash⟩, Crawl.record_id st _ |>.symm, Crawl.record_nodup st _, ?_, ?_⟩
    · intro e
      rw [Crawl.record_id]
      exact Crawl.mem_record
    · intro field
      rw [Crawl.record_id]
      exact Crawl.record_values st _ field
  framed := by
    intro call t u hu hstep
    cases call with
    | registerUrl hash => cases hu
    | startCrawl start => cases hu
    | updateCrawl v =>
      cases hu
      cases hstep
      unfold CrawlStore.updateCrawl
      split
      · rename_i hmatch
        change Document.Framed u.crawlId s.documents (updateOne _ _ s.documents)
        rw [h.overwrite_eq hmatch]
        exact framed_landed s u
      · exact framed_same u.crawlId s.documents
    | append i =>
      obtain ⟨v, hv, rfl⟩ := Option.map_eq_some_iff.mp hstep
      obtain rfl := Option.some.inj (hv.symm.trans hu)
      change Document.Framed v.crawlId s.documents (updateOne _ _ s.documents)
      rw [h.append_eq (List.mem_of_getElem? hv)]
      exact framed_landed s v

end CrawlStore

instance (s : CrawlStore) : DecidablePred s.Separate
  | .startCrawl start => inferInstanceAs (Decidable (∀ st ∈ allStarts s.log, st.id ≠ start.id))
  | .updateCrawl u => inferInstanceAs
      (Decidable (∀ v ∈ s.pending, v.crawlId = u.crawlId → v.execution.component ≠ u.execution.component))
  | .registerUrl _ => inferInstanceAs (Decidable True)
  | .append _ => inferInstanceAs (Decidable True)

end Linksurf.Pipeline
