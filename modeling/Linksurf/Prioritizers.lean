import Linksurf.Metrics
import Linksurf.Rounding
import Mathlib.Data.Rat.Floor

/-!
# The priority of a URL

`MultiFactorPrioritizer`: four scores, each lower for a URL further out, their
mean rounded and clamped. Every step of that is antitone in the factors.
-/
namespace Linksurf.Pipeline

open Rounding

def MIN_QUEUE_PRIORITY : Int := 0
def MAX_QUEUE_PRIORITY : Int := 5

/-- `URL.path_depth`. -/
def URL.pathDepth (url : URL) : Nat := ((url.path.splitOn '/').filter (· ≠ [])).length

/-- A score that falls by one with every element. -/
def countScore (n : Nat) : Int := max MIN_QUEUE_PRIORITY (MAX_QUEUE_PRIORITY - n)

/-- The score of the first bound a value is below. -/
def boundScore (bounds : List (ℚ × Int)) : Option ℚ → Int
  | none => MAX_QUEUE_PRIORITY / 2
  | some x => ((bounds.find? (fun bound => x < bound.1)).map Prod.snd).getD 0

namespace MultiFactorPrioritizer

def pathScore (pathDepth : Nat) : Int := countScore pathDepth

/-- `len(query.split("&")) if query else 0`. -/
def queryCount (query : List Char) : Nat := if query = [] then 0 else (query.splitOn '&').length

def queryScore (query : List Char) : Int := countScore (queryCount query)

def responseTimeBounds : List (ℚ × Int) := [(200, 5), (500, 4), (1000, 3), (2000, 2), (5000, 1)]

def responseTimeScore (avgMs : Option ℚ) : Int := boundScore responseTimeBounds avgMs

def crawlCountBounds : List (ℚ × Int) := [(10, 5), (50, 4), (200, 3), (500, 2), (1000, 1)]

def crawlCountScore (totalCrawled : Option Int) : Int := boundScore crawlCountBounds (totalCrawled.map (fun n : Int => (n : ℚ)))

def scores (url : URL) (metrics : Option DomainMetrics) : List Int :=
  [ pathScore (URL.pathDepth url),
    queryScore url.query,
    responseTimeScore (metrics.map (·.avgResponseMs)),
    crawlCountScore (metrics.map (·.totalCrawled)) ]

/-- `sum(scores) / len(scores)`. -/
def meanScore (url : URL) (metrics : Option DomainMetrics) : ℚ :=
  ((scores url metrics).sum : ℚ) / (scores url metrics).length

/-- `execute`, with what `get_domain_metrics` answers. -/
def execute (url : URL) (lookup : Except Raised (Option DomainMetrics)) : Response Int :=
  match lookup with
  | .error e => ⟨none, some { message := "Cache lookup failed.", retriable := true, exception := some e }⟩
  | .ok metrics =>
    let priority := roundEven (meanScore url metrics)
    ⟨some (max MIN_QUEUE_PRIORITY (min MAX_QUEUE_PRIORITY priority)), none⟩

end MultiFactorPrioritizer

/-! ## Scores -/

theorem countScore_bounds (n : Nat) : MIN_QUEUE_PRIORITY ≤ countScore n ∧ countScore n ≤ MAX_QUEUE_PRIORITY := by
  unfold countScore MIN_QUEUE_PRIORITY MAX_QUEUE_PRIORITY
  omega

theorem countScore_antitone {m n : Nat} (h : m ≤ n) : countScore n ≤ countScore m := by
  unfold countScore
  omega

/-- Scores between the bounds that fall along the list. -/
structure Falling (bounds : List (ℚ × Int)) : Prop where
  between : ∀ bound ∈ bounds, MIN_QUEUE_PRIORITY ≤ bound.2 ∧ bound.2 ≤ MAX_QUEUE_PRIORITY
  sorted : bounds.Pairwise (fun bound bound' => bound'.2 ≤ bound.2)

theorem boundScore_cons (bound : ℚ × Int) (bounds : List (ℚ × Int)) (x : ℚ) :
    boundScore (bound :: bounds) (some x) = if x < bound.1 then bound.2 else boundScore bounds (some x) := by
  unfold boundScore
  split_ifs with h <;> simp [h]

/-- A score is one of the list or nothing. -/
theorem boundScore_mem (bounds : List (ℚ × Int)) (x : ℚ) :
    boundScore bounds (some x) = MIN_QUEUE_PRIORITY ∨ ∃ bound ∈ bounds, boundScore bounds (some x) = bound.2 := by
  cases hfind : bounds.find? (fun bound => x < bound.1) with
  | none => exact .inl (by simp [boundScore, hfind, MIN_QUEUE_PRIORITY])
  | some bound => exact .inr ⟨bound, List.mem_of_find?_eq_some hfind, by simp [boundScore, hfind]⟩

theorem Falling.bounds {bounds : List (ℚ × Int)} (h : Falling bounds) (x : Option ℚ) :
    MIN_QUEUE_PRIORITY ≤ boundScore bounds x ∧ boundScore bounds x ≤ MAX_QUEUE_PRIORITY := by
  cases x with
  | none =>
    change MIN_QUEUE_PRIORITY ≤ MAX_QUEUE_PRIORITY / 2 ∧ MAX_QUEUE_PRIORITY / 2 ≤ MAX_QUEUE_PRIORITY
    decide
  | some x =>
    obtain hscore | ⟨bound, hmem, hscore⟩ := boundScore_mem bounds x
    · rw [hscore]
      decide
    · rw [hscore]
      exact h.between bound hmem

theorem Falling.antitone {bounds : List (ℚ × Int)} (h : Falling bounds) {x y : ℚ} (hxy : x ≤ y) :
    boundScore bounds (some y) ≤ boundScore bounds (some x) := by
  induction bounds with
  | nil => exact le_refl _
  | cons bound bounds ih =>
    obtain ⟨hbetween, hsorted⟩ := h
    obtain ⟨hfirst, hrest⟩ := List.pairwise_cons.mp hsorted
    rw [boundScore_cons, boundScore_cons]
    by_cases hy : y < bound.1
    · rw [if_pos hy, if_pos (lt_of_le_of_lt hxy hy)]
    · rw [if_neg hy]
      split
      · -- the bound is between the two values
        obtain hscore | ⟨later, hmem, hscore⟩ := boundScore_mem bounds y
        · rw [hscore]
          exact (hbetween bound List.mem_cons_self).1
        · rw [hscore]
          exact hfirst later hmem
      · exact ih ⟨fun later hmem => hbetween later (List.mem_cons_of_mem _ hmem), hrest⟩

namespace MultiFactorPrioritizer

theorem falling_responseTime : Falling responseTimeBounds := by
  constructor <;> decide

theorem falling_crawlCount : Falling crawlCountBounds := by
  constructor <;> decide

variable {url url' : URL}

theorem meanScore_eq (url : URL) (metrics : Option DomainMetrics) :
    meanScore url metrics = ((pathScore (URL.pathDepth url) + queryScore url.query +
      responseTimeScore (metrics.map (·.avgResponseMs)) + crawlCountScore (metrics.map (·.totalCrawled)) : Int) : ℚ) / 4 := by
  simp [meanScore, scores]
  ring

/-- The mean needs no clamping. -/
theorem meanScore_bounds (url : URL) (metrics : Option DomainMetrics) :
    (MIN_QUEUE_PRIORITY : ℚ) ≤ meanScore url metrics ∧ meanScore url metrics ≤ (MAX_QUEUE_PRIORITY : ℚ) := by
  have hpath := countScore_bounds (URL.pathDepth url)
  have hquery := countScore_bounds (queryCount url.query)
  have hresponse := falling_responseTime.bounds (metrics.map (·.avgResponseMs))
  have hcrawls := falling_crawlCount.bounds ((metrics.map (·.totalCrawled)).map (fun n : Int => (n : ℚ)))
  rw [meanScore_eq, pathScore, queryScore, responseTimeScore, crawlCountScore, le_div_iff₀ (by norm_num),
    div_le_iff₀ (by norm_num)]
  constructor
  · exact_mod_cast (by omega)
  · exact_mod_cast (by omega)

/-- The mean falls with every factor. -/
theorem meanScore_antitone {metrics metrics' : DomainMetrics} (hpath : URL.pathDepth url' ≤ URL.pathDepth url)
    (hquery : queryCount url'.query ≤ queryCount url.query) (hresponse : metrics'.avgResponseMs ≤ metrics.avgResponseMs)
    (hcrawls : metrics'.totalCrawled ≤ metrics.totalCrawled) :
    meanScore url (some metrics) ≤ meanScore url' (some metrics') := by
  have hpath := countScore_antitone hpath
  have hquery := countScore_antitone hquery
  have hresponse := falling_responseTime.antitone hresponse
  have hcrawls := falling_crawlCount.antitone (Int.cast_le (R := ℚ).mpr hcrawls)
  rw [meanScore_eq, meanScore_eq]
  apply div_le_div_of_nonneg_right _ (by norm_num)
  rw [Int.cast_le]
  simp only [pathScore, queryScore, responseTimeScore, crawlCountScore, Option.map_some]
  omega

/-- The clamping changes nothing. -/
theorem execute_ok (url : URL) (metrics : Option DomainMetrics) :
    execute url (.ok metrics) = ⟨some (roundEven (meanScore url metrics)), none⟩ := by
  obtain ⟨hmin, hmax⟩ := meanScore_bounds url metrics
  have hlow := le_roundEven hmin
  have hhigh := roundEven_le_of_le hmax
  rw [execute, min_eq_right hhigh, max_eq_right hlow]

def frontPage : URL := ⟨https, some "example.com".toList, "example.com".toList, ['/'], [], [], 443⟩

def queriedPage : URL := ⟨https, some "example.org".toList, "example.org".toList, "/a/b".toList, "q=1".toList, [], 443⟩

/-- A tie, at 3.5. -/
example : (execute frontPage (.ok none)).data = some 4 := by
  decide +kernel

/-- Priorities lie between the bounds, are the means rounded to the nearest
integer and to the even one of two, and do not rise with any factor. -/
theorem execute_bounded_antitone :
    (∀ url lookup priority, (execute url lookup).data = some priority →
      MIN_QUEUE_PRIORITY ≤ priority ∧ priority ≤ MAX_QUEUE_PRIORITY ∧ ∃ metrics, lookup = .ok metrics ∧
        |meanScore url metrics - priority| ≤ 1 / 2 ∧ (|meanScore url metrics - priority| = 1 / 2 → priority % 2 = 0)) ∧
    ∀ (url url' : URL) (metrics metrics' : DomainMetrics), URL.pathDepth url' ≤ URL.pathDepth url →
      queryCount url'.query ≤ queryCount url.query → metrics'.avgResponseMs ≤ metrics.avgResponseMs →
      metrics'.totalCrawled ≤ metrics.totalCrawled →
      ∃ priority priority', execute url (.ok (some metrics)) = ⟨some priority, none⟩ ∧
        execute url' (.ok (some metrics')) = ⟨some priority', none⟩ ∧ priority ≤ priority' := by
  constructor
  · intro url lookup priority hpriority
    cases lookup with
    | error e => cases hpriority
    | ok metrics =>
      rw [execute_ok] at hpriority
      obtain rfl := Option.some.inj hpriority
      obtain ⟨hmin, hmax⟩ := meanScore_bounds url metrics
      exact ⟨le_roundEven hmin, roundEven_le_of_le hmax, metrics, rfl, roundEven_nearest _⟩
  · intro url url' metrics metrics' hpath hquery hresponse hcrawls
    refine ⟨_, _, execute_ok url (some metrics), execute_ok url' (some metrics'), ?_⟩
    exact roundEven_mono (meanScore_antitone hpath hquery hresponse hcrawls)

/-- The front page of a fast site, and a page of a slower one with a query. -/
theorem execute_bounded_antitone_pages :
    (∃ priority priority', execute queriedPage (.ok (some ⟨60, 700, 10⟩)) = ⟨some priority, none⟩ ∧
      execute frontPage (.ok (some ⟨1, 100, 10⟩)) = ⟨some priority', none⟩ ∧ priority ≤ priority') ∧
    MIN_QUEUE_PRIORITY ≤ 5 ∧ 5 ≤ MAX_QUEUE_PRIORITY := by
  obtain ⟨hmin, hmax, -⟩ := execute_bounded_antitone.1 frontPage (.ok (some ⟨1, 100, 10⟩)) 5 (by decide +kernel)
  exact ⟨execute_bounded_antitone.2 queriedPage frontPage ⟨60, 700, 10⟩ ⟨1, 100, 10⟩ (by decide +kernel)
    (by decide +kernel) (by decide +kernel) (by decide +kernel), hmin, hmax⟩

end MultiFactorPrioritizer

end Linksurf.Pipeline
