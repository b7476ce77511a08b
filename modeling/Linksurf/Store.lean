import Linksurf.Slots

/-!
# A worker over the urls collection

The event loop of one worker together with the collection it reads and writes:
queries are answered from the collection, in any order, and `start_crawl`
changes it. Registrations and other workers' crawls come in between. The hashes
are kept in the order their fetches started.
-/
namespace Linksurf

open Monitor Execution

structure Crawler where
  node : Node
  urls : List UrlModel
  fetched : List String

def Crawler.initial : Crawler := ⟨.initial, [], []⟩

inductive CrawlerAction where
  | node (action : Action)
  /-- The Frontier registers a URL. -/
  | register (url : Url) (priority : Int)
  /-- Another worker starts a crawl. -/
  | crawl (hash : String)
  deriving DecidableEq

/-- The reply is one the collection gives at this point. -/
def Crawler.answers (s : Crawler) : Pc → Reply → Bool
  | .distinctDomains _ _ _, .urls snapshot => snapshot.isPerm s.urls
  | .domainUrls _ _, .urls snapshot => snapshot.isPerm s.urls
  | .handed p _, .done => (startCrawl p.url.hash s.urls).isSome
  | _, _ => true

/-- The collection after the call that came back with the reply. -/
def Crawler.written (s : Crawler) : Pc → Reply → List UrlModel
  | .handed p _, .done => (startCrawl p.url.hash s.urls).getD s.urls
  | _, _ => s.urls

/-- The hash whose fetch starts when a task runs on from this point. -/
def Pc.fetches : Pc → List String
  | .domainLock p _ => [p.url.hash]
  | _ => []

def Crawler.step (lib : Externals) (s : Crawler) : CrawlerAction → Option Crawler
  | .node (.run task reply) => do
    let pc ← s.node.tasks.pcs[task]?
    if s.answers pc reply then
      let node ← s.node.step lib (.run task reply)
      return ⟨node, s.written pc reply, s.fetched ++ pc.fetches⟩
    else none
  | .node action => do
    let node ← s.node.step lib action
    return { s with node }
  | .register url priority => some { s with urls := registerUrl s.urls (.ofUrl lib url priority) }
  | .crawl hash => (startCrawl hash s.urls).map (fun urls => { s with urls })

/-! ## How the collection changes -/

/-- The address of a document parses back to its hash and domain. -/
def UrlModel.Reparses (lib : Externals) (u : UrlModel) : Prop :=
  ∃ url, lib.url u.address = some url ∧ url.hash = u.hash ∧ url.domain = u.domain

/-- Documents keep everything but a growing crawl history, and new ones have new
hashes. -/
structure Grown (lib : Externals) (urls urls' : List UrlModel) : Prop where
  kept : ∀ u ∈ urls, ∃ u' ∈ urls', u'.hash = u.hash ∧ u'.domain = u.domain
  back : ∀ u' ∈ urls', (∃ u ∈ urls, u.hash = u'.hash ∧ u.domain = u'.domain ∧ u.address = u'.address ∧
    (0 < u.crawls → 0 < u'.crawls)) ∨ (u'.Reparses lib ∧ ∀ u ∈ urls, u.hash ≠ u'.hash)
  nodup : (urls.map (·.hash)).Nodup → (urls'.map (·.hash)).Nodup

/-- A document has the hash, and the crawl of every such document was started. -/
def Counted (urls : List UrlModel) (hash : String) : Prop :=
  (∃ u ∈ urls, u.hash = hash) ∧ ∀ u ∈ urls, u.hash = hash → 0 < u.crawls

section

variable {lib : Externals} {urls urls' : List UrlModel} {hash : String}

theorem Grown.refl (urls : List UrlModel) : Grown lib urls urls where
  kept u hu := ⟨u, hu, rfl, rfl⟩
  back u hu := .inl ⟨u, hu, rfl, rfl, rfl, id⟩
  nodup := id

theorem Grown.counted (h : Grown lib urls urls') (hc : Counted urls hash) : Counted urls' hash := by
  obtain ⟨⟨u, hu, rfl⟩, hall⟩ := hc
  obtain ⟨u', hu', hh, -⟩ := h.kept u hu
  refine ⟨⟨u', hu', hh⟩, fun x hx he => ?_⟩
  rcases h.back x hx with ⟨y, hy, hyh, -, -, hcount⟩ | ⟨-, hnew⟩
  · exact hcount (hall y hy (hyh.trans he))
  · exact absurd he.symm (hnew u hu)

theorem Grown.reparses (h : Grown lib urls urls') (hall : ∀ u ∈ urls, u.Reparses lib) :
    ∀ u ∈ urls', u.Reparses lib := by
  intro u' hu'
  rcases h.back u' hu' with ⟨u, hu, hh, hd, ha, -⟩ | ⟨hr, -⟩
  · obtain ⟨url, hurl, hh', hd'⟩ := hall u hu
    exact ⟨url, ha ▸ hurl, hh'.trans hh, hd'.trans hd⟩
  · exact hr

theorem pushCrawl_crawls (u : UrlModel) : 0 < u.pushCrawl.crawls := by
  simp [UrlModel.pushCrawl, MAX_CRAWL_HISTORY_PER_URL]

/-- `start_crawl` pushes onto one document with the hash. -/
theorem startCrawl_split (h : startCrawl hash urls = some urls') :
    ∃ before u after, urls = before ++ u :: after ∧ u.hash = hash ∧
      urls' = before ++ u.pushCrawl :: after := by
  induction urls generalizing urls' with
  | nil => cases h
  | cons x xs ih =>
    rw [startCrawl] at h
    split at h
    · rename_i hx
      cases h
      exact ⟨[], x, xs, rfl, hx, rfl⟩
    · obtain ⟨ys, hys, rfl⟩ := Option.map_eq_some_iff.mp h
      obtain ⟨before, u, after, rfl, hu, rfl⟩ := ih hys
      exact ⟨x :: before, u, after, rfl, hu, rfl⟩

theorem grown_startCrawl (h : startCrawl hash urls = some urls') : Grown lib urls urls' := by
  obtain ⟨before, u, after, rfl, -, rfl⟩ := startCrawl_split h
  constructor
  · intro x hx
    rcases List.mem_append.mp hx with hx | hx
    · exact ⟨x, List.mem_append_left _ hx, rfl, rfl⟩
    · rcases List.mem_cons.mp hx with rfl | hx
      · exact ⟨x.pushCrawl, by simp, rfl, rfl⟩
      · exact ⟨x, by simp [hx], rfl, rfl⟩
  · intro x hx
    rcases List.mem_append.mp hx with hx | hx
    · exact .inl ⟨x, List.mem_append_left _ hx, rfl, rfl, rfl, id⟩
    · rcases List.mem_cons.mp hx with rfl | hx
      · exact .inl ⟨u, by simp, rfl, rfl, rfl, fun _ => pushCrawl_crawls u⟩
      · exact .inl ⟨x, by simp [hx], rfl, rfl, rfl, id⟩
  · simp [UrlModel.pushCrawl]

theorem startCrawl_counted (h : startCrawl hash urls = some urls') (hn : (urls.map (·.hash)).Nodup) :
    Counted urls' hash := by
  obtain ⟨before, u, after, rfl, hu, rfl⟩ := startCrawl_split h
  rw [List.map_append, List.map_cons, List.nodup_middle, List.nodup_cons, ← List.map_append] at hn
  refine ⟨⟨u.pushCrawl, by simp, hu⟩, fun x hx hxh => ?_⟩
  have hne : x ∈ before ++ after → x.hash ≠ hash := by
    intro hin he
    exact hn.1 (List.mem_map.mpr ⟨x, hin, he.trans hu.symm⟩)
  rcases List.mem_append.mp hx with hx | hx
  · exact absurd hxh (hne (List.mem_append_left _ hx))
  · rcases List.mem_cons.mp hx with rfl | hx
    · exact pushCrawl_crawls u
    · exact absurd hxh (hne (List.mem_append_right _ hx))

theorem grown_registerUrl {url : UrlModel} (hr : url.Reparses lib) : Grown lib urls (registerUrl urls url) := by
  unfold registerUrl
  split
  · exact .refl urls
  · rename_i hnew
    have hne : ∀ u ∈ urls, u.hash ≠ url.hash := by simpa using hnew
    constructor
    · exact fun u hu => ⟨u, List.mem_append_left _ hu, rfl, rfl⟩
    · intro u hu
      rcases List.mem_append.mp hu with hu | hu
      · exact .inl ⟨u, hu, rfl, rfl, rfl, id⟩
      · rw [List.mem_singleton.mp hu]
        exact .inr ⟨hr, hne⟩
    · intro hn
      rw [List.map_append, List.nodup_append']
      refine ⟨hn, by simp, ?_⟩
      simpa [List.disjoint_singleton] using hne

theorem grown_written (s : Crawler) (pc : Pc) (reply : Reply) : Grown lib s.urls (s.written pc reply) := by
  unfold Crawler.written
  split
  · rename_i p l
    cases h : startCrawl p.url.hash s.urls with
    | none => exact .refl _
    | some urls => exact grown_startCrawl h
  · exact .refl _

theorem nodup_getDomainUrls {snapshot : List UrlModel} (hp : snapshot.Perm urls)
    (hn : (urls.map (·.hash)).Nodup) (domain : String) (limit : Nat) :
    ((getDomainUrls snapshot domain limit).map (·.hash)).Nodup := by
  have hs : (snapshot.map (·.hash)).Nodup := (hp.map _).nodup_iff.mpr hn
  have hsort := (List.perm_insertionSort (fun a b : UrlModel => b.priority ≤ a.priority)
    (snapshot.filter (fun u => u.domain = domain ∧ u.crawls = 0))).map (·.hash)
  exact (hsort.nodup_iff.mpr (hs.sublist (List.filter_sublist.map _))).sublist ((List.take_sublist _ _).map _)

end

end Linksurf
