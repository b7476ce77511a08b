import Linksurf.Commits
import Linksurf.Execution

/-!
# The service and its browsers

`visualization/main.py` and `visualization/templates/index.html` at work: one
event is handled at a time, commit by commit, and broadcast to the browsers that
are subscribed; each has a bounded queue and a stream, merges what arrives, and
loads snapshots that it may ask for at any time and that may arrive late.

The places that updates have among all that were broadcast, and what a page was
last loaded from, are kept for the proofs; no step looks at them.
-/
namespace Linksurf.Visualization

open Execution

def MAX_PENDING_UPDATES : Nat := 1000

abbrev BrowserId := Nat

/-- An update, and how many were broadcast before it. -/
abbrev Message := Nat × Update

/-- A snapshot, and how many updates were broadcast before it was read. -/
structure Response where
  graph : Graph
  seen : Nat
  deriving DecidableEq

/-- A browser, with the queue and the stream it has at the service. `loaded` and
`merged` are its last snapshot and what it merged since. -/
structure Browser where
  page : Page := {}
  responses : List Response := []
  streamed : Bool := false
  resyncTimer : Bool := false
  subscribed : Bool := false
  scheduled : List Message := []
  queue : List Message := []
  wire : List Message := []
  loaded : Response := ⟨⟨[], []⟩, 0⟩
  merged : List Message := []
  deriving DecidableEq

/-- A request in `send_event`, with its commits still to come and its update. -/
structure Handling where
  request : Request
  commits : List Db
  update : Option Update

structure Service where
  db : Db := {}
  handling : Option Handling := none
  browsers : BrowserId → Browser := fun _ => {}
  handled : List Request := []
  sent : List Update := []

inductive StreamAction where
  | receive (request : Request)
  | commit
  /-- `broadcast`, and the end of the request. -/
  | broadcast
  | subscribe (browser : BrowserId)
  /-- The loop runs a scheduled delivery. -/
  | deliver (browser : BrowserId)
  | yield (browser : BrowserId)
  | opened (browser : BrowserId)
  | message (browser : BrowserId)
  | disconnect (browser : BrowserId)
  | reload (browser : BrowserId)
  | resync (browser : BrowserId)
  | load (browser : BrowserId) (i : Nat)
  /-- A response that fails. -/
  | fail (browser : BrowserId) (i : Nat)

namespace Browser

/-- Everything on its way to the browser, in order. -/
def onWay (b : Browser) : List Message := b.wire ++ b.queue ++ b.scheduled

/-- `call_soon_threadsafe`, for a queue among the subscribers. -/
def schedule (b : Browser) (m : Message) : Browser := if b.subscribed then { b with scheduled := b.scheduled ++ [m] } else b

/-- `deliver`: an update that does not fit is dropped. -/
def deliver (b : Browser) : Option Browser :=
  match b.scheduled with
  | [] => none
  | m :: scheduled =>
    if b.queue.length < MAX_PENDING_UPDATES then some { b with scheduled, queue := b.queue ++ [m] }
    else some { b with scheduled }

def yield (b : Browser) : Option Browser :=
  match b.queue with
  | [] => none
  | m :: queue => some { b with queue, wire := b.wire ++ [m] }

/-- The `graph` listener of the stream. -/
def message (b : Browser) : Option Browser :=
  match b.wire with
  | [] => none
  | m :: wire => do
    let (page, placed) ← b.page.tryMerge m.2
    return { b with page, wire, resyncTimer := b.resyncTimer || !placed, merged := b.merged ++ [m] }

/-- The `open` listener of the stream. -/
def opened (b : Browser) : Browser := { b with resyncTimer := b.resyncTimer || b.streamed, streamed := true }

/-- `stream_updates` starts with a queue of its own. -/
def subscribe (b : Browser) : Browser := { b with subscribed := true, scheduled := [], queue := [], wire := [] }

def disconnect (b : Browser) : Browser := { b with subscribed := false, scheduled := [], queue := [], wire := [] }

def load (b : Browser) (i : Nat) : Option Browser := do
  let response ← b.responses[i]?
  let page ← Page.load response.graph
  return { b with page, responses := b.responses.eraseIdx i, loaded := response, merged := [] }

end Browser

namespace Service

def setBrowser (s : Service) (id : BrowserId) (b : Browser) : Service :=
  { s with browsers := Function.update s.browsers id b }

/-- `broadcast` schedules an update for every subscriber. -/
def publish (s : Service) : Option Update → Service
  | none => s
  | some update =>
    { s with browsers := fun id => (s.browsers id).schedule (s.sent.length, update), sent := s.sent ++ [update] }

/-- The request of `reload`, which reads what is committed. -/
def fetch (s : Service) (id : BrowserId) (b : Browser) : Option Service := do
  let graph ← getGraph s.db
  return s.setBrowser id { b with responses := b.responses ++ [⟨graph, s.sent.length⟩] }

def step (valid : List Char → Bool) (s : Service) : StreamAction → Option Service
  | .receive request =>
    match s.handling with
    | some _ => none
    | none => some { s with handling := some ⟨request, request.commits valid s.db, (request.handle valid s.db).2⟩ }
  | .commit =>
    match s.handling with
    | some ⟨request, db :: commits, update⟩ => some { s with db, handling := some ⟨request, commits, update⟩ }
    | _ => none
  | .broadcast =>
    match s.handling with
    | some ⟨request, [], update⟩ => some { s.publish update with handling := none, handled := s.handled ++ [request] }
    | _ => none
  | .subscribe id =>
    if (s.browsers id).subscribed then none else some (s.setBrowser id (s.browsers id).subscribe)
  | .deliver id => (s.browsers id).deliver.map (s.setBrowser id)
  | .yield id => (s.browsers id).yield.map (s.setBrowser id)
  | .opened id => some (s.setBrowser id (s.browsers id).opened)
  | .message id => (s.browsers id).message.map (s.setBrowser id)
  | .disconnect id => some (s.setBrowser id (s.browsers id).disconnect)
  | .reload id => s.fetch id (s.browsers id)
  | .resync id =>
    if (s.browsers id).resyncTimer then s.fetch id { s.browsers id with resyncTimer := false } else none
  | .load id i => ((s.browsers id).load i).map (s.setBrowser id)
  | .fail id i => some (s.setBrowser id { s.browsers id with responses := (s.browsers id).responses.eraseIdx i })

/-- The update that the request in hand is going to broadcast. -/
def outstanding (s : Service) : Option Update := s.handling.bind (·.update)

/-- The tables once the request in hand has made its commits. -/
def settled (s : Service) : Db := (s.handling.bind (·.commits.getLast?)).getD s.db

end Service

/-- Merge updates as they come, whether all of their rows have a place or not. -/
def Page.tryMerges (page : Page) (updates : List Update) : Option Page :=
  updates.foldlM (fun page update => (page.tryMerge update).map Prod.fst) page

/-- The events that were received. -/
def Service.requests (s : Service) : List Request := s.handled ++ (s.handling.map (·.request)).toList

/-- What a browser is sent and shows, given the events and the updates so far. -/
structure Browser.Sound (valid : List Char → Bool) (requests : List Request) (sent : List Update) (b : Browser) : Prop where
  reads : ∀ response, response ∈ b.responses ∨ response = b.loaded →
    ReadBy valid requests response.seen response.graph ∧ response.seen ≤ sent.length
  messages : ∀ m ∈ b.merged ++ b.onWay, sent[m.1]? = some m.2
  page : ∃ page, Page.load b.loaded.graph = some page ∧ page.tryMerges (b.merged.map Prod.snd) = some b.page

/-- The tables are where the commits of the request in hand have brought them. -/
structure Service.Sound (valid : List Char → Bool) (s : Service) : Prop where
  sent : s.sent = broadcasts valid {} s.handled
  idle : s.handling = none → s.db = handleAll valid {} s.handled
  busy : ∀ request commits update, s.handling = some ⟨request, commits, update⟩ →
    update = (request.handle valid (handleAll valid {} s.handled)).2 ∧
      ∃ made, request.commits valid (handleAll valid {} s.handled) = made ++ commits ∧
        s.db = made.getLast?.getD (handleAll valid {} s.handled)
  browsers : ∀ id, (s.browsers id).Sound valid s.requests s.sent

section

variable {valid : List Char → Bool} {requests : List Request} {sent : List Update} {b b' : Browser} {s t : Service}

theorem ReadBy.append {seen : Nat} {graph : Graph} (h : ReadBy valid requests seen graph) (request : Request) :
    ReadBy valid (requests ++ [request]) seen graph := by
  obtain ⟨before, after, db, rfl, hseen, hdb, hgraph⟩ := h
  refine ⟨before, after ++ [request], db, List.append_assoc _ _ _, hseen, ?_, hgraph⟩
  obtain hdb | ⟨first, hfirst, hmid⟩ := hdb
  · exact .inl hdb
  · refine .inr ⟨first, ?_, hmid⟩
    rw [List.head?_append, Option.mem_def.mp hfirst]
    rfl

/-! ## Browsers -/

namespace Browser.Sound

theorem append (h : b.Sound valid requests sent) (request : Request) : b.Sound valid (requests ++ [request]) sent where
  reads response hresponse := by
    obtain ⟨hread, hle⟩ := h.reads response hresponse
    exact ⟨hread.append request, hle⟩
  messages := h.messages
  page := h.page

/-- What has fewer responses and messages and the same page. -/
theorem sublist (h : b.Sound valid requests sent) (hresponses : b'.responses ⊆ b.responses) (hloaded : b'.loaded = b.loaded)
    (hmerged : b'.merged = b.merged) (hway : b'.onWay ⊆ b.onWay) (hpage : b'.page = b.page) :
    b'.Sound valid requests sent where
  reads response hresponse := h.reads response (hresponse.imp (fun hin => hresponses hin) (fun he => he.trans hloaded))
  messages m hm := by
    apply h.messages
    rw [hmerged] at hm
    exact List.append_subset.mpr ⟨List.subset_append_left _ _, List.subset_append_of_subset_right _ hway⟩ hm
  page := by
    rw [hloaded, hmerged, hpage]
    exact h.page

theorem schedule (h : b.Sound valid requests sent) (update : Update) :
    (b.schedule (sent.length, update)).Sound valid requests (sent ++ [update]) := by
  have hold : ∀ m ∈ b.merged ++ b.onWay, (sent ++ [update])[m.1]? = some m.2 := by
    intro m hm
    have hsent := h.messages m hm
    obtain ⟨hlt, -⟩ := List.getElem?_eq_some_iff.mp hsent
    rw [List.getElem?_append_left hlt, hsent]
  have hreads : ∀ response, response ∈ b.responses ∨ response = b.loaded →
      ReadBy valid requests response.seen response.graph ∧ response.seen ≤ (sent ++ [update]).length := by
    intro response hresponse
    obtain ⟨hread, hle⟩ := h.reads response hresponse
    rw [List.length_append]
    exact ⟨hread, hle.trans (Nat.le_add_right _ _)⟩
  unfold Browser.schedule
  split
  · refine ⟨hreads, ?_, h.page⟩
    intro m hm
    simp only [Browser.onWay, ← List.append_assoc] at hm hold
    obtain hm | hm := List.mem_append.mp hm
    · exact hold m hm
    · rw [List.mem_singleton.mp hm, List.getElem?_append_right le_rfl, Nat.sub_self]
      rfl
  · exact ⟨hreads, hold, h.page⟩

theorem deliver (h : b.Sound valid requests sent) (hdeliver : b.deliver = some b') : b'.Sound valid requests sent := by
  unfold Browser.deliver at hdeliver
  split at hdeliver
  · cases hdeliver
  · rename_i m scheduled hscheduled
    split at hdeliver
    · cases hdeliver
      refine h.sublist (fun _ hr => hr) rfl rfl ?_ rfl
      simp [Browser.onWay, hscheduled]
    · cases hdeliver
      refine h.sublist (fun _ hr => hr) rfl rfl ?_ rfl
      rw [Browser.onWay, Browser.onWay, hscheduled]
      exact List.append_subset.mpr ⟨List.subset_append_left _ _,
        List.subset_append_of_subset_right _ (List.subset_cons_self m scheduled)⟩

theorem yield (h : b.Sound valid requests sent) (hyield : b.yield = some b') : b'.Sound valid requests sent := by
  unfold Browser.yield at hyield
  split at hyield
  · cases hyield
  · rename_i m queue hqueue
    cases hyield
    refine h.sublist (fun _ hr => hr) rfl rfl ?_ rfl
    simp [Browser.onWay, hqueue]

theorem message (h : b.Sound valid requests sent) (hmessage : b.message = some b') : b'.Sound valid requests sent := by
  unfold Browser.message at hmessage
  split at hmessage
  · cases hmessage
  · rename_i m wire hwire
    obtain ⟨⟨page, placed⟩, hmerge, hmessage⟩ := Option.bind_eq_some_iff.mp hmessage
    cases hmessage
    refine ⟨h.reads, ?_, ?_⟩
    · simpa [Browser.onWay, hwire] using h.messages
    · obtain ⟨first, hload, hpage⟩ := h.page
      refine ⟨first, hload, ?_⟩
      rw [Page.tryMerges] at hpage ⊢
      rw [List.map_append, List.foldlM_append, hpage]
      simp [hmerge]

theorem load (h : b.Sound valid requests sent) {i : Nat} (hload : b.load i = some b') : b'.Sound valid requests sent := by
  obtain ⟨response, hresponse, hload⟩ := Option.bind_eq_some_iff.mp hload
  obtain ⟨page, hpage, hload⟩ := Option.bind_eq_some_iff.mp hload
  cases hload
  have hmem := List.mem_of_getElem? hresponse
  refine ⟨?_, ?_, page, hpage, rfl⟩
  · rintro other (hother | rfl)
    · exact h.reads other (.inl (List.mem_of_mem_eraseIdx hother))
    · exact h.reads other (.inl hmem)
  · intro m hm
    exact h.messages m (List.mem_append_right _ hm)

theorem fetched (h : b.Sound valid requests sent) {response : Response}
    (hread : ReadBy valid requests response.seen response.graph ∧ response.seen ≤ sent.length) (timer : Bool) :
    Browser.Sound valid requests sent { b with responses := b.responses ++ [response], resyncTimer := timer } where
  reads other hother := by
    obtain hother | hother := hother
    · obtain hin | hnew := List.mem_append.mp hother
      · exact h.reads other (.inl hin)
      · rwa [List.mem_singleton.mp hnew]
    · exact h.reads other (.inr hother)
  messages := h.messages
  page := h.page

end Browser.Sound

/-! ## Steps -/

@[simp] theorem Service.setBrowser_same (s : Service) (id : BrowserId) (b : Browser) : (s.setBrowser id b).browsers id = b :=
  Function.update_self ..

theorem Service.setBrowser_other {id other : BrowserId} (h : other ≠ id) : (s.setBrowser id b).browsers other = s.browsers other :=
  Function.update_of_ne h ..

theorem Service.initial_sound : Service.Sound valid {} where
  sent := rfl
  idle _ := rfl
  busy _ _ _ h := by cases h
  browsers _ := by
    refine ⟨?_, by simp [Browser.onWay], ?_⟩
    · rintro response (hin | rfl)
      · cases hin
      · exact ⟨⟨[], [], {}, rfl, rfl, .inl rfl, rfl⟩, le_rfl⟩
    · exact ⟨{}, rfl, rfl⟩

namespace Service.Sound

/-- What happens to one browser. -/
theorem setBrowser (h : s.Sound valid) {id : BrowserId} (hb : b.Sound valid s.requests s.sent) :
    (s.setBrowser id b).Sound valid where
  sent := h.sent
  idle := h.idle
  busy := h.busy
  browsers other := by
    by_cases he : other = id
    · rw [he, Service.setBrowser_same]
      exact hb
    · rw [Service.setBrowser_other he]
      exact h.browsers other

/-- The tables hold what the request in hand has committed so far. -/
theorem read (h : s.Sound valid) {graph : Graph} (hgraph : getGraph s.db = some graph) :
    ReadBy valid s.requests s.sent.length graph := by
  refine ⟨s.handled, (s.handling.map (·.request)).toList, s.db, rfl, by rw [h.sent], ?_, hgraph⟩
  cases hhandling : s.handling with
  | none => exact .inl (h.idle hhandling)
  | some handling =>
    obtain ⟨request, commits, update⟩ := handling
    obtain ⟨-, made, hcommits, hdb⟩ := h.busy request commits update hhandling
    cases hlast : made.getLast? with
    | none =>
      rw [hlast] at hdb
      exact .inl hdb
    | some db =>
      rw [hlast, Option.getD_some] at hdb
      refine .inr ⟨request, rfl, ?_⟩
      rw [hdb, hcommits]
      exact List.mem_append_left _ (List.mem_of_getLast? hlast)

theorem fetch (h : s.Sound valid) {id : BrowserId} (timer : Bool)
    (hfetch : s.fetch id { s.browsers id with resyncTimer := timer } = some t) : t.Sound valid := by
  obtain ⟨graph, hgraph, hfetch⟩ := Option.bind_eq_some_iff.mp hfetch
  cases hfetch
  exact h.setBrowser ((h.browsers id).fetched ⟨h.read hgraph, le_rfl⟩ timer)

/-- What the tables and the update come to once every commit is made. -/
theorem finished (h : s.Sound valid) :
    s.settled = handleAll valid {} s.requests ∧ s.sent ++ s.outstanding.toList = broadcasts valid {} s.requests := by
  cases hhandling : s.handling with
  | none =>
    rw [Service.settled, Service.outstanding, Service.requests, hhandling]
    simp [h.idle hhandling, h.sent]
  | some handling =>
    obtain ⟨request, commits, update⟩ := handling
    obtain ⟨hupdate, made, hcommits, hdb⟩ := h.busy request commits update hhandling
    obtain ⟨hl, hr⟩ := handleAll_linked empty_linked empty_rooted valid s.handled
    have htold := handle_told hl hr valid request
    have hall : handleAll valid {} (s.handled ++ [request]) = (request.handle valid (handleAll valid {} s.handled)).1 := by
      rw [handleAll, List.foldl_append]
      rfl
    rw [Service.settled, Service.outstanding, Service.requests, hhandling]
    simp only [Option.bind_some, Option.map_some, Option.toList_some, hall, broadcasts_append, hdb, hupdate, h.sent,
      broadcasts, List.append_nil, and_true]
    have hlast : (made ++ commits).getLast?.getD (handleAll valid {} s.handled) =
        (request.handle valid (handleAll valid {} s.handled)).1 := by
      rw [hcommits] at htold
      generalize made ++ commits = all at htold
      generalize request.handle valid (handleAll valid {} s.handled) = result at htold ⊢
      cases htold with
      | unchanged => rfl
      | changed _ hlast _ => rw [hlast, Option.getD_some]
    rw [← hlast, List.getLast?_append]
    cases commits.getLast? with
    | none => rfl
    | some db => rfl

theorem receive (h : s.Sound valid) (request : Request) (hidle : s.handling = none) :
    Service.Sound valid
      { s with handling := some ⟨request, request.commits valid s.db, (request.handle valid s.db).2⟩ } where
  sent := h.sent
  idle hnone := by cases hnone
  busy _ _ _ hsome := by
    cases hsome
    rw [h.idle hidle]
    exact ⟨rfl, [], rfl, rfl⟩
  browsers id := by
    have hb := (h.browsers id).append request
    rw [Service.requests, hidle, Option.map_none, Option.toList_none, List.append_nil] at hb
    exact hb

theorem commit (h : s.Sound valid) {request : Request} {db : Db} {commits : List Db} {update : Option Update}
    (hbusy : s.handling = some ⟨request, db :: commits, update⟩) :
    Service.Sound valid { s with db, handling := some ⟨request, commits, update⟩ } where
  sent := h.sent
  idle hnone := by cases hnone
  busy _ _ _ hsome := by
    cases hsome
    obtain ⟨hupdate, made, hcommits, -⟩ := h.busy request _ _ hbusy
    refine ⟨hupdate, made ++ [db], by simpa using hcommits, by simp⟩
  browsers id := by
    have hb := h.browsers id
    rw [Service.requests, hbusy] at hb
    exact hb

theorem broadcast (h : s.Sound valid) {request : Request} {update : Option Update}
    (hbusy : s.handling = some ⟨request, [], update⟩) :
    Service.Sound valid { s.publish update with handling := none, handled := s.handled ++ [request] } := by
  obtain ⟨hsettled, hsent⟩ := h.finished
  simp only [Service.settled, Service.outstanding, Service.requests, hbusy, Option.bind_some, List.getLast?_nil,
    Option.getD_none, Option.map_some, Option.toList_some] at hsettled hsent
  have hb (id : BrowserId) : (s.browsers id).Sound valid (s.handled ++ [request]) s.sent := by
    have hb := h.browsers id
    rw [Service.requests, hbusy] at hb
    exact hb
  cases update with
  | none =>
    constructor
    · rwa [Option.toList_none, List.append_nil] at hsent
    · exact fun _ => hsettled
    · intro _ _ _ hsome
      cases hsome
    · intro id
      have hsound := hb id
      simpa [Service.requests, Service.publish] using hsound
  | some update =>
    constructor
    · exact hsent
    · exact fun _ => hsettled
    · intro _ _ _ hsome
      cases hsome
    · intro id
      have hsound := (hb id).schedule update
      simpa [Service.requests, Service.publish] using hsound

theorem step (h : s.Sound valid) (a : StreamAction) (hs : s.step valid a = some t) : t.Sound valid := by
  cases a with
  | receive request =>
    cases hhandling : s.handling with
    | some handling => simp [Service.step, hhandling] at hs
    | none =>
      simp only [Service.step, hhandling] at hs
      cases hs
      have hsound := h.receive request hhandling
      exact hsound
  | commit =>
    simp only [Service.step] at hs
    split at hs
    · rename_i request db commits update hbusy
      cases hs
      exact h.commit hbusy
    · cases hs
  | broadcast =>
    simp only [Service.step] at hs
    split at hs
    · rename_i request update hbusy
      cases hs
      exact h.broadcast hbusy
    · cases hs
  | subscribe id =>
    simp only [Service.step] at hs
    split at hs
    · cases hs
    · cases hs
      exact h.setBrowser ((h.browsers id).sublist (fun _ hr => hr) rfl rfl (List.nil_subset _) rfl)
  | deliver id =>
    obtain ⟨b, hb, rfl⟩ := Option.map_eq_some_iff.mp hs
    exact h.setBrowser ((h.browsers id).deliver hb)
  | yield id =>
    obtain ⟨b, hb, rfl⟩ := Option.map_eq_some_iff.mp hs
    exact h.setBrowser ((h.browsers id).yield hb)
  | opened id =>
    cases hs
    exact h.setBrowser ((h.browsers id).sublist (fun _ hr => hr) rfl rfl (fun _ hm => hm) rfl)
  | message id =>
    obtain ⟨b, hb, rfl⟩ := Option.map_eq_some_iff.mp hs
    exact h.setBrowser ((h.browsers id).message hb)
  | disconnect id =>
    cases hs
    exact h.setBrowser ((h.browsers id).sublist (fun _ hr => hr) rfl rfl (List.nil_subset _) rfl)
  | reload id => exact h.fetch (s.browsers id).resyncTimer hs
  | resync id =>
    simp only [Service.step] at hs
    split at hs
    · exact h.fetch false hs
    · cases hs
  | load id i =>
    obtain ⟨b, hb, rfl⟩ := Option.map_eq_some_iff.mp hs
    exact h.setBrowser ((h.browsers id).load hb)
  | fail id i =>
    cases hs
    exact h.setBrowser ((h.browsers id).sublist (List.eraseIdx_subset) rfl rfl (fun _ hm => hm) rfl)

end Service.Sound

theorem Service.reaches_sound (h : Reaches (Service.step valid) Free {} s) : s.Sound valid :=
  h.invariant _ Service.initial_sound (fun _ a _ hs _ hstep => hs.step a hstep)

end

end Linksurf.Visualization
