import Linksurf.Models
import Mathlib.Algebra.Order.Field.Rat
import Mathlib.Data.List.Sort

/-!
# URLs and the urls collection

URL documents as the Frontier registers them, the two queries that feed the
back queue, and the write that starts a crawl. A snapshot of the collection is a
list in any order, so documents the queries rank equally come in any order.
Parsing an address and `mmh3.hash` belong to libraries and are parameters.
-/
namespace Linksurf

/-- The properties of a `URL` the back queue and the Downloader read. -/
structure Url where
  address : String
  hash : String
  domain : String
  port : Nat
  deriving DecidableEq

/-- `URL(address)`, `none` where the constructor raises, and `mmh3.hash`. -/
structure Externals where
  url : String → Option Url
  mmh3 : String → Nat

/-- `bucketize`: buckets are numbered from `1`. -/
def Externals.bucketize (lib : Externals) (domain : String) : Nat := lib.mmh3 domain % BUCKET_COUNT + 1

def MAX_CRAWL_HISTORY_PER_URL : Nat := 3

/-- A URL document; of its crawl history only the length matters here. -/
structure UrlModel where
  address : String
  hash : String
  domain : String
  bucket : Nat
  priority : Int
  crawls : Nat := 0
  deriving DecidableEq

/-- The document the Frontier registers for a URL. -/
def UrlModel.ofUrl (lib : Externals) (url : Url) (priority : Int) : UrlModel where
  address := url.address
  hash := url.hash
  domain := url.domain
  bucket := lib.bucketize url.domain
  priority

/-- `register_url`: insert unless the hash is known. -/
def registerUrl (urls : List UrlModel) (url : UrlModel) : List UrlModel :=
  if urls.any (fun u => u.hash = url.hash) then urls else urls ++ [url]

def UrlModel.pushCrawl (u : UrlModel) : UrlModel :=
  { u with crawls := min (u.crawls + 1) MAX_CRAWL_HISTORY_PER_URL }

/-- `start_crawl`: `none` where it raises because no document has the hash. -/
def startCrawl (hash : String) : List UrlModel → Option (List UrlModel)
  | [] => none
  | u :: us => if u.hash = hash then some (u.pushCrawl :: us) else (startCrawl hash us).map (u :: ·)

/-- `$avg` of a domain's priorities. -/
def avgPriority (urls : List UrlModel) (domain : String) : ℚ :=
  let priorities := (urls.filter (fun u => u.domain = domain)).map (fun u => (u.priority : ℚ))
  priorities.sum / priorities.length

/-- `get_distinct_domains`. -/
def getDistinctDomains (urls : List UrlModel) (excluded : List String) (buckets : List Nat)
    (limit : Nat) : List String :=
  let matching := urls.filter (fun u => u.domain ∉ excluded ∧ u.bucket ∈ buckets ∧ u.crawls = 0)
  ((matching.map (·.domain)).eraseDups.insertionSort
    (fun a b => avgPriority matching b ≤ avgPriority matching a)).take limit

/-- `get_domain_urls`. -/
def getDomainUrls (urls : List UrlModel) (domain : String) (limit : Nat) : List UrlModel :=
  ((urls.filter (fun u => u.domain = domain ∧ u.crawls = 0)).insertionSort
    (fun a b => b.priority ≤ a.priority)).take limit

theorem mem_getDistinctDomains {urls : List UrlModel} {excluded : List String} {buckets : List Nat}
    {limit : Nat} {domain : String} (h : domain ∈ getDistinctDomains urls excluded buckets limit) :
    domain ∉ excluded ∧ ∃ u ∈ urls, u.domain = domain ∧ u.bucket ∈ buckets := by
  have hmem := List.mem_of_mem_take h
  rw [List.mem_insertionSort, List.mem_eraseDups, List.mem_map] at hmem
  obtain ⟨u, hu, rfl⟩ := hmem
  obtain ⟨hin, hex, hb, -⟩ : u ∈ urls ∧ u.domain ∉ excluded ∧ u.bucket ∈ buckets ∧ u.crawls = 0 := by
    simpa using hu
  exact ⟨hex, u, hin, rfl, hb⟩

theorem mem_getDomainUrls {urls : List UrlModel} {domain : String} {limit : Nat} {u : UrlModel}
    (h : u ∈ getDomainUrls urls domain limit) : u ∈ urls ∧ u.domain = domain ∧ u.crawls = 0 := by
  have hmem := List.mem_of_mem_take h
  rw [List.mem_insertionSort] at hmem
  simpa using hmem

/-- Two pages of one site, for runs on concrete inputs. -/
def site : Externals where
  url address :=
    if address = "https://site/1" then some ⟨address, "1", "site", 443⟩
    else if address = "https://site/2" then some ⟨address, "2", "site", 443⟩
    else none
  mmh3 _ := 0

def page1 : UrlModel := ⟨"https://site/1", "1", "site", 1, 0, 0⟩
def page2 : UrlModel := ⟨"https://site/2", "2", "site", 1, 0, 0⟩

end Linksurf
