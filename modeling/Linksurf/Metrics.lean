import Linksurf.Stages
import Mathlib.Algebra.BigOperators.Group.List.Basic
import Mathlib.Data.List.Count
import Mathlib.Tactic.FieldSimp
import Mathlib.Tactic.Linarith
import Mathlib.Tactic.Ring

/-!
# The metrics of a domain

`RedisCache.update_domain_metrics` reads the record of a domain, computes the
new averages and writes the record back. Any number of such calls share one
cache, whose operations are atomic; a call that reads before another one has
written makes that one's page, or its own, get lost. Numbers are exact.
-/
namespace Linksurf.Pipeline

open Coroutine
open Execution

structure DomainMetrics where
  totalCrawled : Int
  avgResponseMs : ℚ
  avgContentSize : ℚ
  deriving DecidableEq

/-- What is recorded of a page. -/
structure Page where
  responseMs : ℚ
  contentSize : Int

/-- The key of the record of a domain. -/
def metricsKey (domain : Option (List Char)) (port : Nat) : String :=
  "linksurf:domain:" ++ domain.elim "None" String.ofList ++ "@" ++ toString port ++ ":metrics"

/-- The operations on the record, which is written as a whole. -/
inductive MetricsOp where
  | hgetall (key : String)
  | hset (key : String) (mapping : DomainMetrics)

@[reducible] def MetricsOp.Reply : MetricsOp → Type
  | .hgetall _ => Option DomainMetrics
  | .hset _ _ => Unit

/-- The record with one more page. -/
def DomainMetrics.add (current : Option DomainMetrics) (page : Page) : DomainMetrics :=
  match current with
  | none => ⟨1, page.responseMs, page.contentSize⟩
  | some current =>
    let total := current.totalCrawled + 1
    { totalCrawled := total
      avgResponseMs := current.avgResponseMs + (page.responseMs - current.avgResponseMs) / total
      avgContentSize := current.avgContentSize + (page.contentSize - current.avgContentSize) / total }

/-- `update_domain_metrics`. -/
def updateDomainMetrics (domain : Option (List Char)) (port : Nat) (page : Page) : Coro MetricsOp MetricsOp.Reply Unit := do
  let key := metricsKey domain port
  let current ← Coro.perform (MetricsOp.hgetall key)
  Coro.perform (MetricsOp.hset key (DomainMetrics.add current page))

/-- The call with the page of a payload. -/
inductive Call.Records {rt : Runtime} (p : Payload rt) : Call rt → Prop
  | response (response : HTTPResponseSummary rt) : p.response = some response →
      Records p (.updateDomainMetrics p.url.val.domain p.url.val.port response.elapsedMs response.sizeBytes)

/-- The only operation of a handler of the Storage is the call for its page. -/
theorem store_calls {rt : Runtime} (p : Payload rt) :
    Proc.Keeps (σ := Unit) ⟨fun _ call => call.Records p, fun _ _ _ _ => True⟩ (fun _ _ _ => True) Storage.store p () := by
  rw [Storage.store, Proc.keeps_bind, Proc.keeps_read, Proc.after_ok]
  cases p.content with
  | none => trivial
  | some content =>
    cases hresponse : p.response with
    | none => trivial
    | some response =>
      apply Proc.keeps_step (Call.Records.response response hresponse)
      intro r u _
      cases r <;> trivial

/-! ## Means -/

def mean (xs : List ℚ) : ℚ := xs.sum / xs.length

/-- The running mean. -/
theorem mean_cons (x : ℚ) (xs : List ℚ) : mean (x :: xs) = mean xs + (x - mean xs) / (xs.length + 1) := by
  have hnext : (xs.length : ℚ) + 1 ≠ 0 := by positivity
  by_cases hnil : xs = []
  · simp [hnil, mean]
  · have hlength : (xs.length : ℚ) ≠ 0 := by
      simpa using hnil
    have hcons : mean (x :: xs) = (x + xs.sum) / (xs.length + 1) := by simp [mean]
    rw [hcons, mean]
    field_simp
    ring

theorem mean_perm {xs ys : List ℚ} (h : xs.Perm ys) : mean xs = mean ys := by
  rw [mean, mean, h.sum_eq, h.length_eq]

/-- The record is exact for the pages. -/
def Represents : Option DomainMetrics → List Page → Prop
  | none, pages => pages = []
  | some metrics, pages => metrics.totalCrawled = pages.length ∧ metrics.avgResponseMs = mean (pages.map (·.responseMs)) ∧
      metrics.avgContentSize = mean (pages.map (fun page => (page.contentSize : ℚ)))

theorem Represents.perm {record : Option DomainMetrics} {pages pages' : List Page} (h : Represents record pages)
    (hp : pages.Perm pages') : Represents record pages' := by
  cases record with
  | none =>
    obtain rfl : pages = [] := h
    exact hp.nil_eq.symm
  | some metrics =>
    obtain ⟨htotal, hresponse, hsize⟩ := h
    refine ⟨?_, ?_, ?_⟩
    · rw [htotal, hp.length_eq]
    · rw [hresponse, mean_perm (hp.map _)]
    · rw [hsize, mean_perm (hp.map _)]

/-- One call on its own keeps the record exact. -/
theorem Represents.add {record : Option DomainMetrics} {pages : List Page} (h : Represents record pages) (page : Page) :
    Represents (some (DomainMetrics.add record page)) (page :: pages) := by
  cases record with
  | none =>
    obtain rfl : pages = [] := h
    simp [Represents, DomainMetrics.add, mean]
  | some metrics =>
    obtain ⟨htotal, hresponse, hsize⟩ := h
    refine ⟨?_, ?_, ?_⟩
    · simp [DomainMetrics.add, htotal]
    · simp [DomainMetrics.add, htotal, hresponse, mean_cons]
    · simp [DomainMetrics.add, htotal, hsize, mean_cons]

/-- `total_crawled` of a record, if there is one. -/
def totalCrawled (record : Option DomainMetrics) : Int := record.elim 0 DomainMetrics.totalCrawled

theorem Represents.total {record : Option DomainMetrics} {pages : List Page} (h : Represents record pages) :
    totalCrawled record = pages.length := by
  cases record with
  | none =>
    obtain rfl : pages = [] := h
    rfl
  | some metrics => exact h.1

/-! ## Concurrent calls -/

/-- A call with its arguments and what is left of it. -/
structure MetricsCall where
  key : String
  page : Page
  rest : Coro MetricsOp MetricsOp.Reply Unit

namespace MetricsCall

def completed (call : MetricsCall) : Bool :=
  match call.rest with
  | .ret _ => true
  | .await _ _ => false

/-- About to write the record. -/
def writes (key : String) (call : MetricsCall) : Bool :=
  match call.rest with
  | .await (.hset key' _) _ => key' = key
  | _ => false

/-- About to read the record. -/
def reads (key : String) (call : MetricsCall) : Bool :=
  match call.rest with
  | .await (.hgetall key') _ => key' = key
  | _ => false

@[simp] theorem completed_ret (key : String) (page : Page) (a : Unit) : completed ⟨key, page, .ret a⟩ = true := rfl

@[simp] theorem completed_await (key : String) (page : Page) (op : MetricsOp)
    (k : op.Reply → Coro MetricsOp MetricsOp.Reply Unit) : completed ⟨key, page, .await op k⟩ = false := rfl

end MetricsCall

/-- The pages of the calls for a record. -/
def pagesOf (key : String) (calls : List MetricsCall) : List Page :=
  (calls.filter (fun call => call.key = key)).map (·.page)

/-- The pages of those that are completed. -/
def donePages (key : String) (calls : List MetricsCall) : List Page := pagesOf key (calls.filter (·.completed))

theorem donePages_append (key : String) (front back : List MetricsCall) :
    donePages key (front ++ back) = donePages key front ++ donePages key back := by
  simp [donePages, pagesOf]

theorem donePages_cons (key : String) (call : MetricsCall) (back : List MetricsCall) :
    donePages key (call :: back) = (if call.completed && call.key = key then [call.page] else []) ++ donePages key back := by
  cases hdone : call.completed with
  | false => simp [donePages, pagesOf, hdone]
  | true => by_cases hkey : call.key = key <;> simp [donePages, pagesOf, hdone, hkey]

/-- The records of the shared cache and the calls over it. -/
structure MetricsCache where
  record : String → Option DomainMetrics
  calls : List MetricsCall

/-- A handler calls `update_domain_metrics`, or a call gets the answer to its
operation. -/
inductive MetricsAction where
  | call (domain : Option (List Char)) (port : Nat) (page : Page)
  | next (i : Nat)

def MetricsOp.reply (record : String → Option DomainMetrics) : (op : MetricsOp) → op.Reply
  | .hgetall key => record key
  | .hset _ _ => ()

def MetricsOp.effect (record : String → Option DomainMetrics) : MetricsOp → String → Option DomainMetrics
  | .hgetall _ => record
  | .hset key mapping => Function.update record key (some mapping)

namespace MetricsCache

def step (s : MetricsCache) : MetricsAction → Option MetricsCache
  | .call domain port page =>
    some { s with calls := s.calls ++ [⟨metricsKey domain port, page, updateDomainMetrics domain port page⟩] }
  | .next i => do
    let call ← s.calls[i]?
    match call.rest with
    | .ret _ => none
    | .await op k =>
      some ⟨op.effect s.record, s.calls.set i { call with rest := k (op.reply s.record) }⟩

/-- The record is read only while no call is between its own read and its write. -/
def Serial (key : String) (s : MetricsCache) : MetricsAction → Prop
  | .call _ _ _ => True
  | .next i => ∀ call, s.calls[i]? = some call → call.reads key = true → ∀ other ∈ s.calls, other.writes key = false

/-- What one call can do. -/
theorem step_next {s s' : MetricsCache} {i : Nat} (h : s.step (.next i) = some s') :
    ∃ front call back op k, s.calls = front ++ call :: back ∧ s.calls[i]? = some call ∧ call.rest = .await op k ∧
      s' = ⟨op.effect s.record, front ++ { call with rest := k (op.reply s.record) } :: back⟩ := by
  obtain ⟨call, hcall, hnext⟩ := Option.bind_eq_some_iff.mp h
  cases hrest : call.rest with
  | ret a =>
    rw [hrest] at hnext
    cases hnext
  | await op k =>
    rw [hrest] at hnext
    obtain ⟨hi, hget⟩ := List.getElem?_eq_some_iff.mp hcall
    have hfound (next : MetricsCall) : ∃ front back, s.calls = front ++ s.calls[i] :: back ∧ front.length = i ∧
        s.calls.set i next = front ++ next :: back := List.exists_of_set hi
    obtain ⟨front, back, hsplit, -, hset⟩ := hfound { call with rest := k (op.reply s.record) }
    refine ⟨front, call, back, op, k, by rw [hsplit, hget], hcall, hrest, ?_⟩
    rw [← hset]
    exact (Option.some.inj hnext).symm

end MetricsCache

/-- How far a call has come; what it is about to write for the key it computed
from the record as it is. -/
inductive MetricsCall.Point (key : String) (record : Option DomainMetrics) (call : MetricsCall) : Prop
  | reading : call.rest = .await (.hgetall call.key)
      (fun current => .await (.hset call.key (DomainMetrics.add current call.page)) .ret) → Point key record call
  | writing (current : Option DomainMetrics) : call.rest = .await (.hset call.key (DomainMetrics.add current call.page)) .ret →
      (call.key = key → current = record) → Point key record call
  | completed : call.rest = .ret () → Point key record call

/-- The record holds the pages of the completed calls, and at most one call is
about to write it. -/
structure MetricsCache.Exact (key : String) (before : List Page) (s : MetricsCache) : Prop where
  points : ∀ call ∈ s.calls, call.Point key (s.record key)
  single : s.calls.countP (·.writes key) ≤ 1
  exact : Represents (s.record key) (donePages key s.calls ++ before)

/-- A call that is not about to write the record may see any. -/
theorem MetricsCall.Point.of_not_writes {key : String} {record record' : Option DomainMetrics} {call : MetricsCall}
    (h : call.Point key record) (hwrites : call.writes key = false) : call.Point key record' := by
  cases h with
  | reading hrest => exact .reading hrest
  | completed hrest => exact .completed hrest
  | writing current hrest _ =>
    apply MetricsCall.Point.writing current hrest
    intro hkey
    simp [MetricsCall.writes, hrest, hkey] at hwrites

namespace MetricsCache.Exact

variable {key : String} {before : List Page} {s : MetricsCache}

theorem call (h : s.Exact key before) (domain : Option (List Char)) (port : Nat) (page : Page) : Exact key before
    { s with calls := s.calls ++ [⟨metricsKey domain port, page, updateDomainMetrics domain port page⟩] } where
  points := by
    intro call hcall
    obtain hcall | hcall := List.mem_append.mp hcall
    · exact h.points call hcall
    · obtain rfl := List.mem_singleton.mp hcall
      exact .reading rfl
  single := by
    have hnew : MetricsCall.writes key ⟨metricsKey domain port, page, updateDomainMetrics domain port page⟩ = false := rfl
    simpa [hnew] using h.single
  exact := by
    have hnew : MetricsCall.completed ⟨metricsKey domain port, page, updateDomainMetrics domain port page⟩ = false := rfl
    simpa [donePages_append, donePages, pagesOf, hnew] using h.exact

variable {front back : List MetricsCall} {call : MetricsCall}

theorem others (h : s.Exact key before) (hcalls : s.calls = front ++ call :: back) :
    ∀ other ∈ front ++ back, other.Point key (s.record key) := by
  intro other hother
  apply h.points
  rw [hcalls]
  exact List.perm_middle.mem_iff.mpr (List.mem_cons_of_mem _ hother)

/-- The other calls and the one that goes on. -/
theorem forall_replaced {P : MetricsCall → Prop} (hothers : ∀ other ∈ front ++ back, P other) (hcall : P call) :
    ∀ other ∈ front ++ call :: back, P other := by
  intro other hother
  obtain rfl | hother := List.mem_cons.mp (List.perm_middle.mem_iff.mp hother)
  · exact hcall
  · exact hothers other hother

/-- A call reads the record while nobody is about to write it. -/
theorem read (h : s.Exact key before) (hcalls : s.calls = front ++ call :: back)
    (hrest : call.rest = .await (.hgetall call.key)
      (fun current => .await (.hset call.key (DomainMetrics.add current call.page)) .ret))
    (hserial : call.key = key → ∀ other ∈ s.calls, other.writes key = false) :
    Exact key before ⟨s.record, front ++
      { call with rest := .await (.hset call.key (DomainMetrics.add (s.record call.key) call.page)) .ret } :: back⟩ where
  points := by
    apply forall_replaced (h.others hcalls)
    apply MetricsCall.Point.writing (s.record call.key) rfl
    intro hkey
    rw [show call.key = key from hkey]
  single := by
    have hsingle := h.single
    rw [hcalls] at hsingle hserial
    by_cases hkey : call.key = key
    · -- nobody else writes the record
      have hnone : (front ++ back).countP (·.writes key) = 0 := by
        rw [List.countP_eq_zero]
        intro other hother
        have hfalse := hserial hkey other (by simp at hother ⊢; tauto)
        simp [hfalse]
      rw [List.countP_append] at hnone
      simp only [List.countP_append, List.countP_cons]
      split <;> omega
    · have hnot : MetricsCall.writes key { call with
          rest := .await (.hset call.key (DomainMetrics.add (s.record call.key) call.page)) .ret } = false := by
        simp [MetricsCall.writes, hkey]
      simp only [List.countP_append, List.countP_cons, hnot] at hsingle ⊢
      simp
      omega
  exact := by
    have hbefore : call.completed = false := by simp [MetricsCall.completed, hrest]
    have hexact := h.exact
    rw [hcalls, donePages_append, donePages_cons] at hexact
    simpa [donePages_append, donePages_cons, hbefore] using hexact

/-- A call writes what it computed from the record as it is. -/
theorem write (h : s.Exact key before) (hcalls : s.calls = front ++ call :: back) {current : Option DomainMetrics}
    (hrest : call.rest = .await (.hset call.key (DomainMetrics.add current call.page)) .ret)
    (hcurrent : call.key = key → current = s.record key) :
    Exact key before ⟨Function.update s.record call.key (some (DomainMetrics.add current call.page)),
      front ++ { call with rest := .ret () } :: back⟩ := by
  have hpoints := h.others hcalls
  obtain ⟨-, hsingle, hexact⟩ := h
  have hbefore : call.completed = false := by simp [MetricsCall.completed, hrest]
  have hafter : MetricsCall.writes key { call with rest := .ret () } = false := rfl
  have hdone (record : Option DomainMetrics) : MetricsCall.Point key record { call with rest := .ret () } :=
    .completed rfl
  rw [hcalls] at hsingle hexact
  simp only [donePages_append, donePages_cons, hbefore] at hexact
  simp only [List.countP_append, List.countP_cons] at hsingle
  by_cases hkey : call.key = key
  · have hwrites : call.writes key = true := by simp [MetricsCall.writes, hrest, hkey]
    simp only [hwrites, if_true] at hsingle
    have hothers : ∀ other ∈ front ++ back, other.writes key = false := by
      have hnone : (front ++ back).countP (·.writes key) = 0 := by
        rw [List.countP_append]
        omega
      intro other hother
      simpa using List.countP_eq_zero.mp hnone other hother
    constructor
    · exact forall_replaced (fun other hother => (hpoints other hother).of_not_writes (hothers other hother)) (hdone _)
    · simp only [List.countP_append, List.countP_cons, hafter]
      simp
      omega
    · have hadded := hexact.add call.page
      rw [← hcurrent hkey] at hadded
      simp only [hkey, Function.update_self]
      apply hadded.perm
      have hmiddle : (donePages key front ++ call.page :: (donePages key back ++ before)).Perm
          (call.page :: (donePages key front ++ (donePages key back ++ before))) := List.perm_middle
      simpa [donePages_append, donePages_cons, hkey] using hmiddle.symm
  · constructor
    · simp only [Function.update_of_ne (Ne.symm hkey)]
      exact forall_replaced hpoints (hdone _)
    · simp only [List.countP_append, List.countP_cons, hafter]
      simp
      omega
    · simp only [Function.update_of_ne (Ne.symm hkey)]
      simpa [donePages_append, donePages_cons, hkey] using hexact

theorem step (h : s.Exact key before) {a : MetricsAction} {s' : MetricsCache} (hserial : Serial key s a)
    (hstep : s.step a = some s') : s'.Exact key before := by
  cases a with
  | call domain port page =>
    obtain rfl := Option.some.inj hstep
    exact h.call domain port page
  | next i =>
    obtain ⟨front, call, back, op, k, hcalls, hget, hrest, rfl⟩ := step_next hstep
    cases h.points call (by simp [hcalls]) with
    | reading hpoint =>
      rw [hpoint] at hrest
      cases hrest
      apply h.read hcalls hpoint
      intro hkey
      exact hserial call hget (by simp [MetricsCall.reads, hpoint, hkey])
    | writing current hpoint hcurrent =>
      rw [hpoint] at hrest
      cases hrest
      exact h.write hcalls hpoint hcurrent
    | completed hpoint =>
      rw [hpoint] at hrest
      cases hrest

end MetricsCache.Exact

/-- Calls that do not overlap between their reads and their writes lose no page:
the averages are those of all pages. -/
theorem update_domain_metrics_exact {s₀ s : MetricsCache} {domain : Option (List Char)} {port : Nat} {before : List Page}
    (hstart : s₀.calls = []) (hbefore : Represents (s₀.record (metricsKey domain port)) before)
    (hrun : Reaches MetricsCache.step (MetricsCache.Serial (metricsKey domain port)) s₀ s)
    (hdone : ∀ call ∈ s.calls, call.key = metricsKey domain port → call.completed = true) :
    totalCrawled (s.record (metricsKey domain port)) =
        totalCrawled (s₀.record (metricsKey domain port)) + (pagesOf (metricsKey domain port) s.calls).length ∧
      Represents (s.record (metricsKey domain port)) (pagesOf (metricsKey domain port) s.calls ++ before) := by
  generalize metricsKey domain port = key at *
  have hstart : s₀.Exact key before := by
    constructor
    · simp [hstart]
    · simp [hstart]
    · simpa [hstart, donePages, pagesOf] using hbefore
  have hexact : s.Exact key before :=
    hrun.invariant (MetricsCache.Exact key before) hstart (fun _ _ _ hi hp hs => hi.step hp hs)
  have hpages : donePages key s.calls = pagesOf key s.calls := by
    rw [donePages, pagesOf, pagesOf, List.filter_filter]
    congr 1
    apply List.filter_congr
    intro call hcall
    by_cases hkey : call.key = key
    · simp [hkey, hdone call hcall hkey]
    · simp [hkey]
  have hrepresents := hexact.exact
  rw [hpages] at hrepresents
  refine ⟨?_, hrepresents⟩
  rw [hrepresents.total, hbefore.total, List.length_append]
  omega

def emptyMetrics : MetricsCache := ⟨fun _ => none, []⟩

def siteKey : String := metricsKey (some "site".toList) 80

def siteCall (responseMs : ℚ) (contentSize : Int) : MetricsAction := .call (some "site".toList) 80 ⟨responseMs, contentSize⟩

/-- One call after the other. -/
theorem update_domain_metrics_exact_site :
    ∃ s, Reaches MetricsCache.step (MetricsCache.Serial siteKey) emptyMetrics s ∧
      totalCrawled (s.record siteKey) = totalCrawled (emptyMetrics.record siteKey) + (pagesOf siteKey s.calls).length ∧
      Represents (s.record siteKey) (pagesOf siteKey s.calls ++ []) := by
  have hrun : Reaches MetricsCache.step (MetricsCache.Serial siteKey) emptyMetrics _ :=
    .tail (.tail (.tail .refl (a := siteCall 100 10) trivial rfl) (a := .next 0) (by
      intro call hcall _ other hother
      cases hcall
      obtain rfl := List.mem_singleton.mp hother
      rfl) rfl) (a := .next 0) (by
      intro call hcall hreads
      cases hcall
      cases hreads) rfl
  refine ⟨_, hrun, update_domain_metrics_exact rfl rfl hrun ?_⟩
  intro call hcall _
  obtain rfl := List.mem_singleton.mp hcall
  rfl

/-- Two calls that both read before either writes leave one page. -/
theorem update_domain_metrics_lost :
    ((run MetricsCache.step emptyMetrics
        [siteCall 100 10, siteCall 300 30, .next 0, .next 1, .next 0, .next 1]).map (fun s =>
        (s.record siteKey, (pagesOf siteKey s.calls).length, s.calls.all (·.completed)))) =
      some (some ⟨1, 300, 30⟩, 2, true) := by
  rfl

end Linksurf.Pipeline
