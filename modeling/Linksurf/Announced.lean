import Linksurf.Notes
import Linksurf.Stages

/-!
# Components with the events of their executors

`Component.rule`, `deduplicate`, `enrich`, `filter` and `prioritize` and
`Frontier.process` once more, with the Start, Finish and Error events as notes.
The data of a middleware's Finish event is left out. Without the notes they are
the programs as they were.
-/
namespace Linksurf.Pipeline

open Coroutine

inductive Executor where
  | rule (name : String)
  | deduplicator (name : String)
  | middleware (name : String)
  | filter (name : String)
  | prioritizer (name : String)
  deriving DecidableEq

/-- What every event of an executor carries. -/
structure Origin where
  correlationId : String
  url : String
  component : ComponentName
  deriving DecidableEq

/-- The data of a Finish event. -/
inductive Finished where
  | passed (passed : Bool)
  | seen (seen : Bool)
  | enriched
  | priority (priority : Int)
  deriving DecidableEq

inductive ExecutorEvent where
  | start (executor : Executor) (origin : Origin)
  | finish (executor : Executor) (origin : Origin) (data : Finished)
  | error (executor : Executor) (origin : Origin) (error : Error)
  deriving DecidableEq

def Judge.executor : Judge → String → Executor
  | .rule => .rule
  | .filter => .filter

abbrev Announced (rt : Runtime) (α : Type) := Proc.Announcing (Call rt) ExecutorEvent Call.Reply Raised (Payload rt) α

/-- `URLDeduplicator.check`. -/
def checkError (e : Raised) : Error := { message := "Cache lookup failed.", retriable := true, exception := some e }

/-- `URLDeduplicator.register`. -/
def registerError (e : Raised) : Error := { message := "Cache write failed.", retriable := true, exception := some e }

def emptyResponse : Error := { message := "Prioritizer gave empty response.", retriable := true }

def Component.origin {rt : Runtime} (c : Component) (p : Payload rt) : Origin := ⟨p.correlationId, p.url.address, c.name⟩

namespace Announced

variable {rt : Runtime}

abbrev perform (call : Call rt) : Announced rt call.Reply := Proc.quietly (await call)

def judgeAll (c : Component) (kind : Judge) : List String → Announced rt (Except Error Bool)
  | [] => pure (.ok true)
  | name :: names => do
    let p ← Proc.read
    Proc.note (.start (kind.executor name) (c.origin p))
    let executed ← perform (.judge kind name p)
    let result ← Proc.quietly (response executed)
    match result.error with
    | some error => do
      Proc.note (.error (kind.executor name) (c.origin p) error)
      pure (.error error)
    | none => do
      Proc.note (.finish (kind.executor name) (c.origin p) (.passed (result.data = some true)))
      if result.data = some true then judgeAll c kind names else pure (.ok false)

def enrichAll (c : Component) : List String → Announced rt (Option Error)
  | [] => pure none
  | name :: names => do
    let p ← Proc.read
    Proc.note (.start (.middleware name) (c.origin p))
    let executed ← perform (.executeMiddleware name p)
    let result ← Proc.quietly (response executed)
    match result.error with
    | some error => do
      Proc.note (.error (.middleware name) (c.origin p) error)
      pure (some error)
    | none => do
      Proc.note (.finish (.middleware name) (c.origin p) .enriched)
      enrichAll c names

def rule (c : Component) : Announced rt (Except Error Bool) := judgeAll c .rule c.rules

def enrich (c : Component) : Announced rt (Option Error) := enrichAll c c.middlewares

def filter (c : Component) : Announced rt (Except Error Bool) := do
  match ← enrich c with
  | some error => pure (.error error)
  | none => judgeAll c .filter c.filters

/-- The mark of a URL that is not seen. -/
def registerSeen (c : Component) (name : String) (p : Payload rt) : Announced rt (Except Error Bool) := do
  match ← perform (.markUrlSeen p.url) with
  | .error e => do
    Proc.note (.error (.deduplicator name) (c.origin p) (registerError e))
    pure (.error (registerError e))
  | .ok () => do
    Proc.quietly (Proc.assign (fun p => { p with deduplicated := true }))
    Proc.note (.finish (.deduplicator name) (c.origin p) (.seen false))
    pure (.ok false)

def deduplicate (c : Component) : Announced rt (Except Error Bool) :=
  match c.deduplicator with
  | none => Proc.raise Component.notDefined
  | some name => do
    let p ← Proc.read
    if p.deduplicated then
      -- no event tells of the bypass
      pure (.ok false)
    else do
      Proc.note (.start (.deduplicator name) (c.origin p))
      match ← perform (.isUrlSeen p.url) with
      | .error e => do
        Proc.note (.error (.deduplicator name) (c.origin p) (checkError e))
        pure (.error (checkError e))
      | .ok true => do
        Proc.note (.finish (.deduplicator name) (c.origin p) (.seen true))
        Proc.quietly (Proc.assign (fun p => { p with deduplicated := true }))
        pure (.ok true)
      | .ok false => registerSeen c name p

def prioritize (c : Component) : Announced rt (Except Error Int) :=
  match c.prioritizer with
  | none => Proc.raise Component.notDefined
  | some name => do
    let p ← Proc.read
    Proc.note (.start (.prioritizer name) (c.origin p))
    let executed ← perform (.executePrioritizer name p)
    let result ← Proc.quietly (response executed)
    match result.error, result.data with
    | some error, _ => do
      Proc.note (.error (.prioritizer name) (c.origin p) error)
      pure (.error error)
    | none, none => do
      Proc.note (.error (.prioritizer name) (c.origin p) emptyResponse)
      pure (.error emptyResponse)
    | none, some priority => do
      Proc.note (.finish (.prioritizer name) (c.origin p) (.priority priority))
      pure (.ok priority)

/-- What follows the deduplication. -/
def processNew (c : Component) : Announced rt (Option Error) := do
  match ← filter c with
  | .error error => pure (some error)
  | .ok false => pure none
  | .ok true =>
    match ← prioritize c with
    | .error error => pure (some error)
    | .ok priority => do
      Proc.quietly (Proc.assign (fun p => { p with priority }))
      Proc.quietly Frontier.register

/-- `Frontier.process` with any executors. -/
def process (c : Component) : Announced rt (Option Error) := do
  match ← rule c with
  | .error error => pure (some error)
  | .ok false => pure none
  | .ok true =>
    match ← deduplicate c with
    | .error error => pure (some error)
    | .ok true => pure none
    | .ok false => processNew c

/-! ## Without the events -/

theorem erase_judgeAll (c : Component) (kind : Judge) (names : List String) :
    Proc.erase (judgeAll c kind names : Announced rt _) = Pipeline.judgeAll kind names := by
  induction names with
  | nil => rfl
  | cons name names ih =>
    simp only [judgeAll, Pipeline.judgeAll, Proc.erase_bind, Proc.erase_read, Proc.erase_note, Proc.erase_quietly,
      Proc.pure_step]
    congr
    funext p
    congr
    funext executed
    congr
    funext result
    cases result.error with
    | some error => rfl
    | none =>
      simp only [Proc.erase_bind, Proc.erase_note, Proc.pure_step]
      split
      · exact ih
      · rfl

theorem erase_enrichAll (c : Component) (names : List String) :
    Proc.erase (enrichAll c names : Announced rt _) = Pipeline.enrichAll names := by
  induction names with
  | nil => rfl
  | cons name names ih =>
    simp only [enrichAll, Pipeline.enrichAll, Proc.erase_bind, Proc.erase_read, Proc.erase_note, Proc.erase_quietly,
      Proc.pure_step]
    congr
    funext p
    congr
    funext executed
    congr
    funext result
    cases result.error with
    | some error => rfl
    | none => exact ih

theorem erase_filter (c : Component) : Proc.erase (filter c : Announced rt _) = c.filter := by
  simp only [filter, Component.filter, Proc.erase_bind, enrich, Component.enrich, erase_enrichAll]
  congr
  funext error
  cases error with
  | some error => rfl
  | none => exact erase_judgeAll c .filter c.filters

theorem erase_deduplicate (c : Component) : Proc.erase (deduplicate c : Announced rt _) = c.deduplicate := by
  unfold deduplicate Component.deduplicate
  cases c.deduplicator with
  | none => rfl
  | some name =>
    funext p
    obtain ⟨⟩ := p
    rename_i deduplicated _ _ _ _ _ _ _ _ _
    cases deduplicated with
    | true => rfl
    | false =>
      apply congrArg (Coro.await _)
      funext seen
      cases seen with
      | error e => rfl
      | ok seen =>
        cases seen with
        | true => rfl
        | false =>
          apply congrArg (Coro.await _)
          funext marked
          cases marked <;> rfl

theorem erase_prioritize (c : Component) : Proc.erase (prioritize c : Announced rt _) = c.prioritize := by
  unfold prioritize Component.prioritize
  cases c.prioritizer with
  | none => rfl
  | some name =>
    simp only [Proc.erase_bind, Proc.erase_read, Proc.erase_note, Proc.erase_quietly, Proc.pure_step]
    congr
    funext p
    congr
    funext executed
    congr
    funext result
    obtain ⟨data, error⟩ := result
    cases error with
    | some error => rfl
    | none => cases data <;> rfl

theorem erase_processNew : Proc.erase (processNew frontier : Announced rt _) = Frontier.processNew := by
  simp only [processNew, Frontier.processNew, Proc.erase_bind, erase_filter]
  congr
  funext proceed
  cases proceed with
  | error error => rfl
  | ok proceed =>
    cases proceed with
    | false => rfl
    | true =>
      simp only [Proc.erase_bind, erase_prioritize]
      congr
      funext priority
      cases priority with
      | error error => rfl
      | ok priority => simp only [Proc.erase_bind, Proc.erase_quietly]

/-- Without its events the Frontier processes a payload as before. -/
theorem erase_process : Proc.erase (process frontier : Announced rt _) = Frontier.process := by
  simp only [process, Frontier.process, Proc.erase_bind, rule, Component.rule, erase_judgeAll]
  congr
  funext proceed
  cases proceed with
  | error error => rfl
  | ok proceed =>
    cases proceed with
    | false => rfl
    | true =>
      simp only [Proc.erase_bind, erase_deduplicate]
      congr
      funext seen
      cases seen with
      | error error => rfl
      | ok seen =>
        cases seen with
        | true => rfl
        | false => exact erase_processNew

end Announced

end Linksurf.Pipeline
