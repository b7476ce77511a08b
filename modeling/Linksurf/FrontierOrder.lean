import Linksurf.Announced
import Linksurf.Interleaving

/-!
# The order of the Frontier's stages

Whatever rules, middlewares and filters there are and however they end, the
Frontier executes them in order up to the first that does not pass. A run is a
row of blocks, each from a Start event to its Finish or Error, and behind the
last one the writes.
-/
namespace Linksurf.Pipeline

open Coroutine

/-- How an executor ends. -/
inductive Verdict where
  | pass
  | reject
  | error (error : Error)
  deriving DecidableEq

/-- An error, or how the executor ends without one. -/
def Verdict.of : Option Error → Verdict → Verdict
  | some e, _ => .error e
  | none, verdict => verdict

/-- A rule or a filter, whose data is a boolean. -/
def Verdict.ofJudge (result : Response Bool) : Verdict :=
  .of result.error (if result.data = some true then .pass else .reject)

def Verdict.ofMiddleware (result : Response Unit) : Verdict := .of result.error .pass

def Verdict.ofPrioritizer (result : Response Int) : Verdict :=
  .of result.error (if result.data = none then .error emptyResponse else .pass)

/-- What a run of the Frontier leaves in a log. -/
inductive LogEntry where
  | event (event : ExecutorEvent)
  | executed (executor : Executor) (verdict : Verdict)
  | registerUrl (failure : Option Raised)
  | saveDomain (failure : Option Raised)
  | crawlPending
  deriving DecidableEq

def failureOf : Except Raised Unit → Option Raised
  | .ok () => none
  | .error e => some e

section

variable {rt : Runtime}

/-- The entries of an operation and its answer. The deduplicator has passed when
the URL is marked. -/
def entries (deduplicator : String) : (op : Noted (Call rt) ExecutorEvent) → Noted.Reply Call.Reply op → List LogEntry
  | .note event, _ => [.event event]
  | .op (.judge kind name _), executed =>
    executed.outcome.toOption.toList.map (fun result => .executed (kind.executor name) (.ofJudge result))
  | .op (.executeMiddleware name _), executed =>
    executed.outcome.toOption.toList.map (fun result => .executed (.middleware name) (.ofMiddleware result))
  | .op (.executePrioritizer name _), executed =>
    executed.outcome.toOption.toList.map (fun result => .executed (.prioritizer name) (.ofPrioritizer result))
  | .op (.isUrlSeen _), .error e => [.executed (.deduplicator deduplicator) (.error (checkError e))]
  | .op (.isUrlSeen _), .ok true => [.executed (.deduplicator deduplicator) .reject]
  | .op (.isUrlSeen _), .ok false => []
  | .op (.markUrlSeen _), .error e => [.executed (.deduplicator deduplicator) (.error (registerError e))]
  | .op (.markUrlSeen _), .ok () => [.executed (.deduplicator deduplicator) .pass]
  | .op (.registerUrl _), r => [.registerUrl (failureOf r)]
  | .op (.saveDomain _ _), r => [.saveDomain (failureOf r)]
  | .op (.emit (.crawlPending _ _ _)), _ => [.crawlPending]
  | _, _ => []

/-- An executor passes, rejects or answers an error; it does not raise. -/
def Returns : (op : Noted (Call rt) ExecutorEvent) → Noted.Reply Call.Reply op → Prop
  | .op (.judge _ _ _), executed => ∃ result, executed.outcome = .ok result
  | .op (.executeMiddleware _ _), executed => ∃ result, executed.outcome = .ok result
  | .op (.executePrioritizer _ _), executed => ∃ result, executed.outcome = .ok result
  | _, _ => True

/-- Runs whose executors return, with their log. -/
def logging (deduplicator : String) : Coro.Rules (Noted (Call rt) ExecutorEvent) (Noted.Reply Call.Reply) (List LogEntry) where
  permits _ _ := True
  follows log op r log' := Returns op r ∧ log' = log ++ entries deduplicator op r

end

/-- The executors of a component in their order; the deduplicator is bypassed
by a payload that is deduplicated. -/
def Component.executors (c : Component) (deduplicated : Bool) : List Executor :=
  c.rules.map .rule ++ ((if deduplicated then [] else c.deduplicator.toList.map .deduplicator) ++
    ((c.middlewares.map .middleware ++ c.filters.map .filter) ++ c.prioritizer.toList.map .prioritizer))

/-! ## Blocks -/

/-- The entries of one executor. -/
def block (origin : Origin) (executor : Executor) (data : Finished) : Verdict → List LogEntry
  | .error error =>
    [.event (.start executor origin), .executed executor (.error error), .event (.error executor origin error)]
  | verdict => [.event (.start executor origin), .executed executor verdict, .event (.finish executor origin data)]

/-- The entries of executors up to the first that does not pass. -/
inductive Part (origin : Origin) : List Executor → Verdict → List LogEntry → Prop
  | nil : Part origin [] .pass []
  | pass {executor : Executor} {executors : List Executor} {verdict : Verdict} {log : List LogEntry} (data : Finished) :
      Part origin executors verdict log →
      Part origin (executor :: executors) verdict (block origin executor data .pass ++ log)
  | stop {executor : Executor} {executors : List Executor} {verdict : Verdict} (data : Finished) : verdict ≠ .pass →
      Part origin (executor :: executors) verdict (block origin executor data verdict)

namespace Part

variable {origin : Origin} {executors executors' : List Executor} {verdict : Verdict} {log log' : List LogEntry}

/-- Further executors, where all have passed. -/
theorem append (h : Part origin executors .pass log) (h' : Part origin executors' verdict log') :
    Part origin (executors ++ executors') verdict (log ++ log') := by
  generalize hpass : Verdict.pass = passed at h
  induction h with
  | nil => exact h'
  | pass data _ ih =>
    rw [List.append_assoc]
    exact .pass data (ih hpass)
  | stop data hne => exact absurd hpass.symm hne

/-- Further executors have no part after one that did not pass. -/
theorem stopped (h : Part origin executors verdict log) (hne : verdict ≠ .pass) (executors' : List Executor) :
    Part origin (executors ++ executors') verdict log := by
  induction h with
  | nil => exact absurd rfl hne
  | pass data _ ih => exact .pass data (ih hne)
  | stop data hstop => exact .stop data hstop

end Part

/-! ## Programs -/

section

variable {rt : Runtime} {deduplicator : String} {c : Component} {p : Payload rt} {log : List LogEntry} {α β : Type}
  {Q : Except Raised β → Payload rt → List LogEntry → Prop}

theorem keeps_announce {event : ExecutorEvent} {f : Unit → Announced rt β}
    (h : Proc.Keeps (logging deduplicator) Q (f ()) p (log ++ [.event event])) :
    Proc.Keeps (logging deduplicator) Q (Proc.note event >>= f) p log := by
  refine ⟨trivial, ?_⟩
  rintro ⟨⟩ log' ⟨-, rfl⟩
  exact h

theorem keeps_perform {call : Call rt} {f : call.Reply → Announced rt β}
    (h : ∀ r, Returns (.op call) r →
      Proc.Keeps (logging deduplicator) Q (f r) p (log ++ entries deduplicator (.op call) r)) :
    Proc.Keeps (logging deduplicator) Q (Announced.perform call >>= f) p log := by
  refine ⟨trivial, ?_⟩
  rintro r log' ⟨hreturns, rfl⟩
  exact h r hreturns

/-- An executor that returns leaves its metadata. -/
theorem keeps_returned {executed : Executed α} {result : Response α} (houtcome : executed.outcome = .ok result)
    {f : Response α → Announced rt β}
    (h : Proc.Keeps (logging deduplicator) Q (f result) { p with metadata := executed.metadata } log) :
    Proc.Keeps (logging deduplicator) Q (Proc.quietly (response executed) >>= f) p log := by
  obtain ⟨metadata, outcome⟩ := executed
  subst houtcome
  exact h

theorem keeps_assigned {assign : Payload rt → Payload rt} {f : Unit → Announced rt β}
    (h : Proc.Keeps (logging deduplicator) Q (f ()) (assign p) log) :
    Proc.Keeps (logging deduplicator) Q (Proc.quietly (Proc.assign assign) >>= f) p log := h

/-- The answer of `rule` and `filter`. -/
def Verdict.proceed : Verdict → Except Error Bool
  | .pass => .ok true
  | .reject => .ok false
  | .error e => .error e

theorem keeps_judges {kind : Judge} {names : List String}
    {Q : Except Raised (Except Error Bool) → Payload rt → List LogEntry → Prop}
    (hQ : ∀ metadata verdict log', Part (c.origin p) (names.map kind.executor) verdict log' →
      Q (.ok verdict.proceed) { p with metadata } (log ++ log')) :
    Proc.Keeps (logging deduplicator) Q (Announced.judgeAll c kind names) p log := by
  induction names generalizing p log with
  | nil =>
    have hnil := hQ p.metadata .pass [] .nil
    rw [List.append_nil] at hnil
    exact hnil
  | cons name names ih =>
    rw [Announced.judgeAll, Proc.keeps_bind, Proc.keeps_read, Proc.after_ok]
    apply keeps_announce
    apply keeps_perform
    rintro executed ⟨result, houtcome⟩
    apply keeps_returned houtcome
    have hentries : entries deduplicator (.op (.judge kind name p)) executed =
        [.executed (kind.executor name) (.ofJudge result)] := by
      simp [entries, houtcome, Except.toOption]
    rw [hentries]
    cases herror : result.error with
    | some error =>
      apply keeps_announce
      simpa [Verdict.ofJudge, Verdict.of, herror, block, Verdict.proceed] using
        hQ executed.metadata (.error error) _ (.stop (.passed false) (by simp))
    | none =>
      apply keeps_announce
      change Proc.Keeps _ _ (if result.data = some true then _ else _) _ _
      split
      · rename_i hdata
        apply ih
        intro metadata verdict log' hpart
        simpa [Verdict.ofJudge, Verdict.of, herror, hdata, block] using
          hQ metadata verdict _ (.pass (.passed (result.data = some true)) hpart)
      · rename_i hdata
        simpa [Verdict.ofJudge, Verdict.of, herror, hdata, block, Verdict.proceed] using
          hQ executed.metadata .reject _ (.stop (.passed (result.data = some true)) (by simp))

/-- The answer of `enrich`; a middleware does not reject. -/
def Verdict.failure : Verdict → Option Error
  | .error e => some e
  | .pass => none
  | .reject => none

theorem keeps_middlewares {names : List String}
    {Q : Except Raised (Option Error) → Payload rt → List LogEntry → Prop}
    (hQ : ∀ metadata verdict log', verdict ≠ .reject → Part (c.origin p) (names.map .middleware) verdict log' →
      Q (.ok verdict.failure) { p with metadata } (log ++ log')) :
    Proc.Keeps (logging deduplicator) Q (Announced.enrichAll c names) p log := by
  induction names generalizing p log with
  | nil =>
    have hnil := hQ p.metadata .pass [] (by simp) .nil
    rw [List.append_nil] at hnil
    exact hnil
  | cons name names ih =>
    rw [Announced.enrichAll, Proc.keeps_bind, Proc.keeps_read, Proc.after_ok]
    apply keeps_announce
    apply keeps_perform
    rintro executed ⟨result, houtcome⟩
    apply keeps_returned houtcome
    have hentries : entries deduplicator (.op (.executeMiddleware name p)) executed =
        [.executed (.middleware name) (.ofMiddleware result)] := by
      simp [entries, houtcome, Except.toOption]
    rw [hentries]
    cases herror : result.error with
    | some error =>
      apply keeps_announce
      simpa [Verdict.ofMiddleware, Verdict.of, herror, block, Verdict.failure] using
        hQ executed.metadata (.error error) _ (by simp) (.stop .enriched (by simp))
    | none =>
      apply keeps_announce
      apply ih
      intro metadata verdict log' hverdict hpart
      simpa [Verdict.ofMiddleware, Verdict.of, herror, block] using
        hQ metadata verdict _ hverdict (.pass .enriched hpart)

/-- Middlewares and filters. -/
theorem keeps_filters {Q : Except Raised (Except Error Bool) → Payload rt → List LogEntry → Prop}
    (hQ : ∀ metadata verdict log', Part (c.origin p) (c.middlewares.map .middleware ++ c.filters.map .filter) verdict log' →
      Q (.ok verdict.proceed) { p with metadata } (log ++ log')) :
    Proc.Keeps (logging deduplicator) Q (Announced.filter c) p log := by
  rw [Announced.filter, Announced.enrich, Proc.keeps_bind]
  apply keeps_middlewares
  intro metadata verdict log' hverdict hpart
  cases verdict with
  | reject => exact absurd rfl hverdict
  | error e => exact hQ metadata (.error e) log' (hpart.stopped (by simp) _)
  | pass =>
    rw [Verdict.failure, Proc.after_ok]
    apply keeps_judges
    intro metadata' verdict log'' hpart'
    have hQ := hQ metadata' verdict (log' ++ log'') (hpart.append hpart')
    rw [← List.append_assoc] at hQ
    exact hQ

/-- The answer of `deduplicate`. -/
def Verdict.seen : Verdict → Except Error Bool
  | .pass => .ok false
  | .reject => .ok true
  | .error e => .error e

theorem append_block (log : List LogEntry) (start executed finish : LogEntry) :
    log ++ [start, executed, finish] = log ++ [start] ++ [executed] ++ [finish] := by
  simp

theorem keeps_deduplicator (hname : c.deduplicator = some deduplicator)
    {Q : Except Raised (Except Error Bool) → Payload rt → List LogEntry → Prop}
    (hQ : ∀ deduplicated verdict log', Part (c.origin p)
        (if p.deduplicated then [] else c.deduplicator.toList.map .deduplicator) verdict log' →
      Q (.ok verdict.seen) { p with deduplicated } (log ++ log')) :
    Proc.Keeps (logging deduplicator) Q (Announced.deduplicate c) p log := by
  simp only [Announced.deduplicate, hname]
  rw [Proc.keeps_bind, Proc.keeps_read, Proc.after_ok]
  cases hflag : p.deduplicated with
  | true =>
    have hbypass := hQ p.deduplicated .pass [] (by simpa [hflag] using Part.nil)
    rw [List.append_nil] at hbypass
    exact hbypass
  | false =>
    simp only [hflag, hname, Option.toList_some, List.map_cons, List.map_nil, Bool.false_eq_true, if_false] at hQ
    apply keeps_announce
    apply keeps_perform
    intro seen _
    cases seen with
    | error e =>
      apply keeps_announce
      have herror : Q _ _ (log ++ [_, _, _]) :=
        hQ p.deduplicated (.error (checkError e)) _ (.stop (.seen false) (by simp))
      rw [append_block] at herror
      exact herror
    | ok seen =>
      cases seen with
      | true =>
        apply keeps_announce
        have hseen : Q _ _ (log ++ [_, _, _]) := hQ true .reject _ (.stop (.seen true) (by simp))
        rw [append_block] at hseen
        exact hseen
      | false =>
        -- nothing is decided before the mark
        rw [Announced.registerSeen, entries, List.append_nil]
        apply keeps_perform
        intro marked _
        cases marked with
        | error e =>
          apply keeps_announce
          have herror : Q _ _ (log ++ [_, _, _]) :=
            hQ p.deduplicated (.error (registerError e)) _ (.stop (.seen false) (by simp))
          rw [append_block] at herror
          exact herror
        | ok _ =>
          have hmarked : Q _ _ (log ++ [_, _, _]) := hQ true .pass _ (.pass (.seen false) .nil)
          rw [append_block] at hmarked
          apply keeps_announce
          exact hmarked

/-- The answer of `prioritize`; a prioritizer does not reject. -/
def Verdict.priority (n : Int) : Verdict → Except Error Int
  | .error e => .error e
  | .pass => .ok n
  | .reject => .ok n

theorem keeps_prioritizer {name : String} (hname : c.prioritizer = some name)
    {Q : Except Raised (Except Error Int) → Payload rt → List LogEntry → Prop}
    (hQ : ∀ metadata n verdict log', verdict ≠ .reject → Part (c.origin p) (c.prioritizer.toList.map .prioritizer) verdict log' →
      Q (.ok (verdict.priority n)) { p with metadata } (log ++ log')) :
    Proc.Keeps (logging deduplicator) Q (Announced.prioritize c) p log := by
  simp only [Announced.prioritize, hname]
  simp only [hname, Option.toList_some, List.map_cons, List.map_nil] at hQ
  rw [Proc.keeps_bind, Proc.keeps_read, Proc.after_ok]
  apply keeps_announce
  apply keeps_perform
  rintro executed ⟨⟨data, error⟩, houtcome⟩
  apply keeps_returned houtcome
  have hentries : entries deduplicator (.op (.executePrioritizer name p)) executed =
      [.executed (.prioritizer name) (.ofPrioritizer ⟨data, error⟩)] := by
    simp [entries, houtcome, Except.toOption]
  rw [hentries]
  cases error with
  | some error =>
    apply keeps_announce
    simpa [Verdict.ofPrioritizer, Verdict.of, block, Verdict.priority] using
      hQ executed.metadata 0 (.error error) _ (by simp) (.stop .enriched (by simp))
  | none =>
    cases data with
    | none =>
      apply keeps_announce
      simpa [Verdict.ofPrioritizer, Verdict.of, block, Verdict.priority] using
        hQ executed.metadata 0 (.error emptyResponse) _ (by simp) (.stop .enriched (by simp))
    | some n =>
      apply keeps_announce
      have hpass := hQ executed.metadata n .pass _ (by simp) (.pass (.priority n) .nil)
      simp only [List.append_nil] at hpass
      simpa [Verdict.ofPrioritizer, Verdict.of, block, Verdict.priority] using hpass

def writeError (e : Raised) : Error := { message := "Database write failed.", retriable := true, exception := some e }

/-- The end of a run in which every executor passed: without a domain there is
no bucket, else the URL is written before its domain. -/
inductive Written (domain : Option String) : Except Raised (Option Error) → List LogEntry → Prop
  | refused : domain = none → Written domain (.error typeError) []
  | unregistered (e : Raised) : domain ≠ none → Written domain (.ok (some (writeError e))) [.registerUrl (some e)]
  | unsaved (e : Raised) : domain ≠ none →
      Written domain (.ok (some (writeError e))) [.registerUrl none, .saveDomain (some e)]
  | written : domain ≠ none → Written domain (.ok none) [.registerUrl none, .saveDomain none, .crawlPending]

theorem keeps_written {Q : Except Raised (Option Error) → Payload rt → List LogEntry → Prop}
    (hQ : ∀ r log', Written p.url.domain r log' → Q r p (log ++ log')) :
    Proc.Keeps (logging deduplicator) Q (Proc.quietly Frontier.register) p log := by
  rw [Proc.keeps_quietly, Frontier.register, Proc.keeps_bind, Proc.keeps_read, Proc.after_ok, Proc.keeps_bind]
  cases hdomain : p.url.domain with
  | none =>
    have hrefused := hQ _ _ (.refused hdomain)
    rw [List.append_nil] at hrefused
    exact hrefused
  | some domain =>
    have hne : p.url.domain ≠ none := by simp [hdomain]
    rw [Frontier.bucketize, Proc.keeps_pure, Proc.after_ok]
    apply Proc.keeps_step (by trivial)
    rintro registered log' ⟨-, rfl⟩
    cases registered with
    | error e => exact hQ _ _ (.unregistered e hne)
    | ok _ =>
      apply Proc.keeps_step (by trivial)
      rintro saved log' ⟨-, rfl⟩
      cases saved with
      | error e =>
        have hunsaved := hQ _ _ (.unsaved e hne)
        rw [← List.singleton_append, ← List.append_assoc] at hunsaved
        exact hunsaved
      | ok _ =>
        apply Proc.keeps_step (by trivial)
        rintro _ log' ⟨-, rfl⟩
        have hwritten := hQ _ _ (.written hne)
        rw [append_block] at hwritten
        exact hwritten

/-- How a run ends that has come to a verdict. -/
def Concludes (domain : Option String) : Verdict → Except Raised (Option Error) → List LogEntry → Prop
  | .pass, r, log => Written domain r log
  | .reject, r, log => r = .ok none ∧ log = []
  | .error e, r, log => r = .ok (some e) ∧ log = []

/-- A run is a part of the executors' blocks, and its end. -/
theorem keeps_process {name : String} (hdeduplicator : c.deduplicator = some deduplicator)
    (hprioritizer : c.prioritizer = some name) (p : Payload rt) :
    Proc.Keeps (logging deduplicator)
      (fun r _ log => ∃ verdict executed writes, log = executed ++ writes ∧
        Part (c.origin p) (c.executors p.deduplicated) verdict executed ∧ Concludes p.url.domain verdict r writes)
      (Announced.process c) p [] := by
  rw [Announced.process, Announced.rule, Proc.keeps_bind]
  apply keeps_judges
  intro metadata verdict log hpart
  rw [List.nil_append]
  cases verdict with
  | error e => exact ⟨.error e, log, [], by simp, hpart.stopped (by simp) _, rfl, rfl⟩
  | reject => exact ⟨.reject, log, [], by simp, hpart.stopped (by simp) _, rfl, rfl⟩
  | pass =>
    rw [Verdict.proceed, Proc.after_ok, Proc.keeps_bind]
    apply keeps_deduplicator hdeduplicator
    intro deduplicated verdict log' hpart'
    cases verdict with
    | error e => exact ⟨.error e, log ++ log', [], by simp, hpart.append (hpart'.stopped (by simp) _), rfl, rfl⟩
    | reject => exact ⟨.reject, log ++ log', [], by simp, hpart.append (hpart'.stopped (by simp) _), rfl, rfl⟩
    | pass =>
      rw [Verdict.seen, Proc.after_ok, Announced.processNew, Proc.keeps_bind]
      apply keeps_filters
      intro metadata' verdict log₃ hpart₃
      cases verdict with
      | error e =>
        exact ⟨.error e, log ++ (log' ++ log₃), [], by simp, hpart.append (hpart'.append (hpart₃.stopped (by simp) _)),
          rfl, rfl⟩
      | reject =>
        exact ⟨.reject, log ++ (log' ++ log₃), [], by simp, hpart.append (hpart'.append (hpart₃.stopped (by simp) _)),
          rfl, rfl⟩
      | pass =>
        rw [Verdict.proceed, Proc.after_ok, Proc.keeps_bind]
        apply keeps_prioritizer hprioritizer
        intro metadata₄ n verdict log₄ hverdict hpart₄
        have hall : Part (c.origin p) (c.executors p.deduplicated) verdict (log ++ (log' ++ (log₃ ++ log₄))) :=
          hpart.append (hpart'.append (hpart₃.append hpart₄))
        cases verdict with
        | reject => exact absurd rfl hverdict
        | error e => exact ⟨.error e, _, [], by simp, hall, rfl, rfl⟩
        | pass =>
          rw [Verdict.priority, Proc.after_ok]
          apply keeps_assigned
          apply keeps_written
          intro r writes hwritten
          exact ⟨.pass, _, writes, by simp, hall, hwritten⟩

end

/-! ## What the log says -/

def LogEntry.executed? : LogEntry → Option (Executor × Verdict)
  | .executed executor verdict => some (executor, verdict)
  | _ => none

def LogEntry.event? : LogEntry → Option ExecutorEvent
  | .event e => some e
  | _ => none

def LogEntry.isWrite : LogEntry → Bool
  | .registerUrl _ => true
  | .saveDomain _ => true
  | _ => false

def executedOf (log : List LogEntry) : List (Executor × Verdict) := log.filterMap LogEntry.executed?

def eventsOf (log : List LogEntry) : List ExecutorEvent := log.filterMap LogEntry.event?

def writesOf (log : List LogEntry) : List LogEntry := log.filter LogEntry.isWrite

def allPass (executors : List Executor) : List (Executor × Verdict) := executors.map (fun executor => (executor, .pass))

/-- Executed in order, all of them or up to the first that does not pass. -/
def UpToFirst (executors : List Executor) (executed : List (Executor × Verdict)) : Prop :=
  executed = allPass executors ∨ ∃ front executor back verdict, executors = front ++ executor :: back ∧
    verdict ≠ .pass ∧ executed = allPass front ++ [(executor, verdict)]

/-- Every Start is followed by its own Finish or Error before the next one, and
an Error ends the events. -/
inductive Bracketed : List ExecutorEvent → Prop
  | nil : Bracketed []
  | finish {events : List ExecutorEvent} (executor : Executor) (origin : Origin) (data : Finished) : Bracketed events →
      Bracketed (.start executor origin :: .finish executor origin data :: events)
  | error (executor : Executor) (origin : Origin) (error : Error) :
      Bracketed [.start executor origin, .error executor origin error]

/-- The URL is written once, and its domain after it. -/
inductive InOrder : List LogEntry → Prop
  | none : InOrder []
  | failed (e : Raised) : InOrder [.registerUrl (some e)]
  | both (failure : Option Raised) : InOrder [.registerUrl none, .saveDomain failure]

namespace Part

variable {origin : Origin} {executors : List Executor} {verdict : Verdict} {log : List LogEntry}

theorem executedOf_block (origin : Origin) (executor : Executor) (data : Finished) (verdict : Verdict)
    (log : List LogEntry) : executedOf (block origin executor data verdict ++ log) = (executor, verdict) :: executedOf log := by
  cases verdict <;> rfl

theorem executed (h : Part origin executors verdict log) :
    verdict = .pass ∧ executedOf log = allPass executors ∨
      verdict ≠ .pass ∧ ∃ front executor back, executors = front ++ executor :: back ∧
        executedOf log = allPass front ++ [(executor, verdict)] := by
  induction h with
  | nil => exact .inl ⟨rfl, rfl⟩
  | @pass executor executors verdict log data _ ih =>
    rw [executedOf_block]
    obtain ⟨hpass, hlog⟩ | ⟨hpass, front, last, back, rfl, hlog⟩ := ih
    · exact .inl ⟨hpass, by rw [hlog, allPass, allPass, List.map_cons]⟩
    · exact .inr ⟨hpass, executor :: front, last, back, rfl, by rw [hlog]; rfl⟩
  | @stop executor executors verdict data hne =>
    refine .inr ⟨hne, [], executor, executors, rfl, ?_⟩
    have hblock := executedOf_block origin executor data verdict []
    rwa [List.append_nil] at hblock

theorem bracketed (h : Part origin executors verdict log) : Bracketed (eventsOf log) := by
  induction h with
  | nil => exact .nil
  | pass data _ ih => exact .finish _ _ _ ih
  | @stop executor _ verdict data hne =>
    cases verdict with
    | pass => exact absurd rfl hne
    | reject => exact .finish _ _ _ .nil
    | error e => exact .error _ _ _

theorem writes (h : Part origin executors verdict log) : ∀ entry ∈ log, entry.isWrite = false := by
  induction h with
  | nil => simp
  | pass data _ ih =>
    intro entry hentry
    obtain hentry | hentry := List.mem_append.mp hentry
    · simp only [block, List.mem_cons, List.not_mem_nil, or_false] at hentry
      obtain rfl | rfl | rfl := hentry <;> rfl
    · exact ih entry hentry
  | @stop executor _ verdict data hne =>
    intro entry hentry
    cases verdict with
    | pass => exact absurd rfl hne
    | reject =>
      simp only [block, List.mem_cons, List.not_mem_nil, or_false] at hentry
      obtain rfl | rfl | rfl := hentry <;> rfl
    | error e =>
      simp only [block, List.mem_cons, List.not_mem_nil, or_false] at hentry
      obtain rfl | rfl | rfl := hentry <;> rfl

theorem mem_allPass {executors : List Executor} {executor : Executor} {verdict : Verdict}
    (h : (executor, verdict) ∈ allPass executors) : verdict = .pass := by
  obtain ⟨executor', -, he⟩ := List.mem_map.mp h
  exact (Prod.mk.inj he).2.symm

/-- All have passed exactly if the verdict says so. -/
theorem executed_iff (h : Part origin executors verdict log) : executedOf log = allPass executors ↔ verdict = .pass := by
  obtain ⟨hpass, hlog⟩ | ⟨hpass, front, executor, back, -, hlog⟩ := h.executed
  · exact iff_of_true hlog hpass
  · refine iff_of_false ?_ hpass
    intro hall
    have hmem : (executor, verdict) ∈ allPass executors := by
      rw [← hall, hlog]
      exact List.mem_append_right _ (List.mem_singleton_self _)
    exact hpass (mem_allPass hmem)

/-- The only error is the one of the verdict. -/
theorem errored_iff (h : Part origin executors verdict log) :
    (∃ executor error, (executor, .error error) ∈ executedOf log) ↔ ∃ error, verdict = .error error := by
  obtain ⟨hpass, hlog⟩ | ⟨hpass, front, executor, back, -, hlog⟩ := h.executed
  · apply iff_of_false
    · rintro ⟨executor, error, hmem⟩
      rw [hlog] at hmem
      cases mem_allPass hmem
    · rintro ⟨error, rfl⟩
      cases hpass
  · rw [hlog]
    constructor
    · rintro ⟨executor', error, hmem⟩
      obtain hmem | hmem := List.mem_append.mp hmem
      · cases mem_allPass hmem
      · exact ⟨error, ((Prod.mk.inj (List.mem_singleton.mp hmem)).2).symm⟩
    · rintro ⟨error, rfl⟩
      exact ⟨executor, error, List.mem_append_right _ (List.mem_singleton_self _)⟩

end Part

/-- What the end of a run adds to its log. -/
structure Concludes.Adds (domain : Option String) (verdict : Verdict) (r : Except Raised (Option Error))
    (log : List LogEntry) : Prop where
  executed : executedOf log = []
  events : eventsOf log = []
  inOrder : InOrder (writesOf log)
  written : writesOf log ≠ [] ↔ verdict = .pass ∧ domain ≠ none
  errored : (∃ error, r = .ok (some error)) ↔ (∃ error, verdict = .error error) ∨
    (∃ e, LogEntry.registerUrl (some e) ∈ log) ∨ ∃ e, LogEntry.saveDomain (some e) ∈ log
  raised : (∃ e, r = .error e) ↔ verdict = .pass ∧ domain = none

theorem Concludes.adds {domain : Option String} {verdict : Verdict} {r : Except Raised (Option Error)}
    {log : List LogEntry} (h : Concludes domain verdict r log) : Adds domain verdict r log := by
  cases verdict with
  | reject =>
    obtain ⟨rfl, rfl⟩ := h
    constructor <;> simp [executedOf, eventsOf, writesOf, InOrder.none]
  | error e =>
    obtain ⟨rfl, rfl⟩ := h
    constructor <;> simp [executedOf, eventsOf, writesOf, InOrder.none]
  | pass =>
    cases h with
    | refused hdomain => constructor <;> simp [executedOf, eventsOf, writesOf, InOrder.none, hdomain]
    | unregistered e hdomain => exact ⟨rfl, rfl, .failed e, by simp [writesOf, LogEntry.isWrite, hdomain], by simp, by simp [hdomain]⟩
    | unsaved e hdomain => exact ⟨rfl, rfl, .both (some e), by simp [writesOf, LogEntry.isWrite, hdomain], by simp, by simp [hdomain]⟩
    | written hdomain => exact ⟨rfl, rfl, .both none, by simp [writesOf, LogEntry.isWrite, hdomain], by simp, by simp [hdomain]⟩

/-- Order and effect of the Frontier's stages, in every run in which no executor
raises. -/
theorem process_order {rt : Runtime} {c : Component} {deduplicator prioritizer : String}
    (hdeduplicator : c.deduplicator = some deduplicator) (hprioritizer : c.prioritizer = some prioritizer)
    {p : Payload rt} {outcome : Except Raised (Option Error) × Payload rt} {log : List LogEntry}
    (hrun : Coro.Ends (logging deduplicator) (Announced.process c p) [] outcome log) :
    UpToFirst (c.executors p.deduplicated) (executedOf log) ∧ InOrder (writesOf log) ∧
      (writesOf log ≠ [] ↔ executedOf log = allPass (c.executors p.deduplicated) ∧ p.url.domain ≠ none) ∧
      ((∃ error, outcome.1 = .ok (some error)) ↔ (∃ executor error, (executor, .error error) ∈ executedOf log) ∨
        (∃ e, .registerUrl (some e) ∈ log) ∨ ∃ e, .saveDomain (some e) ∈ log) ∧
      ((∃ e, outcome.1 = .error e) ↔ executedOf log = allPass (c.executors p.deduplicated) ∧ p.url.domain = none) ∧
      Bracketed (eventsOf log) := by
  obtain ⟨verdict, blocks, writes, rfl, hpart, hend⟩ := hrun.keeps (keeps_process hdeduplicator hprioritizer p)
  obtain ⟨hexecuted, hevents, horder, hwritten, herrored, hraised⟩ := hend.adds
  have hblocks := hpart.writes
  have hnone : writesOf blocks = [] := by
    rw [writesOf, List.filter_eq_nil_iff]
    intro entry hentry
    simp [hblocks entry hentry]
  have hlog : executedOf (blocks ++ writes) = executedOf blocks := by
    rw [executedOf, List.filterMap_append, ← executedOf, ← executedOf, hexecuted, List.append_nil]
  have hlogEvents : eventsOf (blocks ++ writes) = eventsOf blocks := by
    rw [eventsOf, List.filterMap_append, ← eventsOf, ← eventsOf, hevents, List.append_nil]
  have hlogWrites : writesOf (blocks ++ writes) = writesOf writes := by
    rw [writesOf, List.filter_append, ← writesOf, ← writesOf, hnone, List.nil_append]
  have hfailed (entry : LogEntry) (hentry : entry.isWrite = true) : entry ∈ blocks ++ writes ↔ entry ∈ writes := by
    rw [List.mem_append]
    apply or_iff_right
    intro hmem
    rw [hblocks entry hmem] at hentry
    cases hentry
  have hregister (e : Raised) := hfailed (.registerUrl (some e)) rfl
  have hsave (e : Raised) := hfailed (.saveDomain (some e)) rfl
  rw [hlog, hlogEvents, hlogWrites, hpart.executed_iff, hpart.errored_iff]
  simp only [hregister, hsave]
  refine ⟨?_, horder, hwritten, herrored, hraised, hpart.bracketed⟩
  obtain ⟨-, hall⟩ | ⟨hne, front, executor, back, hsplit, hall⟩ := hpart.executed
  · exact .inl hall
  · exact .inr ⟨front, executor, back, verdict, hsplit, hne, hall⟩

/-- Services and executors with which everything succeeds. -/
def passing (op : Noted (Call asciiRuntime) ExecutorEvent) (log : List LogEntry) :
    Noted.Reply Call.Reply op × List LogEntry :=
  match op with
  | .op call => (exampleReply call, log ++ entries "URLDeduplicator" (.op call) (exampleReply call))
  | .note event => ((), log ++ [.event event])

theorem passing_follows (op : Noted (Call asciiRuntime) ExecutorEvent) (log : List LogEntry) :
    (logging "URLDeduplicator").follows log op (passing op log).1 (passing op log).2 := by
  cases op with
  | note event => exact ⟨trivial, rfl⟩
  | op call =>
    refine ⟨?_, rfl⟩
    cases call <;> first | trivial | exact ⟨_, rfl⟩

def frontierRun (c : Component) (p : Payload asciiRuntime) :
    (Except Raised (Option Error) × Payload asciiRuntime) × List LogEntry :=
  Coro.run passing (Announced.process c p) []

theorem frontierRun_ends (c : Component) (p : Payload asciiRuntime) :
    Coro.Ends (logging "URLDeduplicator") (Announced.process c p) [] (frontierRun c p).1 (frontierRun c p).2 :=
  Coro.ends_run passing_follows _ _

/-- The Frontier's own executors, and a page of a site. -/
theorem process_order_site :
    UpToFirst (frontier.executors false) (executedOf (frontierRun frontier sitePage).2) ∧
      InOrder (writesOf (frontierRun frontier sitePage).2) ∧
      (writesOf (frontierRun frontier sitePage).2 ≠ [] ↔
        executedOf (frontierRun frontier sitePage).2 = allPass (frontier.executors false) ∧ sitePage.url.domain ≠ none) := by
  have horder := process_order rfl rfl (frontierRun_ends frontier sitePage)
  exact ⟨horder.1, horder.2.1, horder.2.2.1⟩

def hostlessURL : BuiltURL asciiRuntime :=
  ⟨⟨http, none, [], "/".toList, [], [], 80⟩, "http:///".toList, by decide +kernel⟩

def hostlessPage : Payload asciiRuntime := { sitePage with url := hostlessURL }

/-- Where the URL has no domain, every stage passes and nothing is written. -/
theorem hostless_not_written :
    Coro.Ends (logging "URLDeduplicator") (Announced.process frontier hostlessPage) [] (frontierRun frontier hostlessPage).1
        (frontierRun frontier hostlessPage).2 ∧
      executedOf (frontierRun frontier hostlessPage).2 = allPass (frontier.executors false) ∧
      writesOf (frontierRun frontier hostlessPage).2 = [] ∧ (frontierRun frontier hostlessPage).1.1.toOption = none := by
  refine ⟨frontierRun_ends frontier hostlessPage, ?_, ?_, ?_⟩
  · decide +kernel
  · decide +kernel
  · decide +kernel

end Linksurf.Pipeline
