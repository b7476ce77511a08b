import Linksurf.Stages

/-!
# What executors change

Rules, middlewares, filters and prioritizers answer with metadata. Where a
conversation takes no note of their calls, a component's use of them leaves
the payload as it is but for its metadata.
-/
namespace Linksurf.Pipeline

open Coroutine

section

universe u

variable {rt : Runtime}

/-- The calls of executors. -/
def Call.Executes : Call rt → Prop
  | .judge _ _ _ | .executeMiddleware _ _ | .executePrioritizer _ _ => True
  | _ => False

variable {σ : Type u} {rules : Coro.Rules (Call rt) Call.Reply σ} {t : σ} {p : Payload rt} {α β : Type}
  {Q : Except Raised β → Payload rt → σ → Prop}

/-- An executor changes the metadata and answers or raises. -/
theorem keeps_response {executed : Executed α} {f : Response α → Task rt β}
    (hf : ∀ result m, Proc.Keeps rules Q (f result) { p with metadata := m } t)
    (he : ∀ e m, Q (.error e) { p with metadata := m } t) :
    Proc.Keeps rules Q (response executed >>= f) p t := by
  obtain ⟨metadata, outcome⟩ := executed
  cases outcome with
  | error e => exact he e metadata
  | ok result => exact hf result metadata

theorem keeps_judgeAll (h : ∀ call : Call rt, call.Executes → rules.Ignores t call) {kind : Judge} {names : List String}
    {Q : Except Raised (Except Error Bool) → Payload rt → σ → Prop} (hQ : ∀ r m, Q r { p with metadata := m } t) :
    Proc.Keeps rules Q (judgeAll kind names) p t := by
  induction names generalizing p with
  | nil => exact hQ (.ok (.ok true)) p.metadata
  | cons name names ih =>
    rw [judgeAll, Proc.keeps_bind, Proc.keeps_read, Proc.after_ok]
    refine Proc.keeps_ask (h _ trivial) (fun executed => ?_)
    apply keeps_response
    · intro result m
      cases result.error with
      | some error => exact hQ _ m
      | none =>
        change Proc.Keeps _ _ (if result.data = some true then _ else _) _ _
        split
        · exact ih hQ
        · exact hQ _ m
    · exact fun e m => hQ _ m

theorem keeps_enrichAll (h : ∀ call : Call rt, call.Executes → rules.Ignores t call) {names : List String}
    {Q : Except Raised (Option Error) → Payload rt → σ → Prop} (hQ : ∀ r m, Q r { p with metadata := m } t) :
    Proc.Keeps rules Q (enrichAll names) p t := by
  induction names generalizing p with
  | nil => exact hQ (.ok none) p.metadata
  | cons name names ih =>
    rw [enrichAll, Proc.keeps_bind, Proc.keeps_read, Proc.after_ok]
    refine Proc.keeps_ask (h _ trivial) (fun executed => ?_)
    apply keeps_response
    · intro result m
      cases result.error with
      | some error => exact hQ _ m
      | none => exact ih hQ
    · exact fun e m => hQ _ m

/-- Middlewares and filters change the metadata only. -/
theorem keeps_filter (h : ∀ call : Call rt, call.Executes → rules.Ignores t call) {component : Component}
    {Q : Except Raised (Except Error Bool) → Payload rt → σ → Prop} (hQ : ∀ r m, Q r { p with metadata := m } t) :
    Proc.Keeps rules Q component.filter p t := by
  simp only [Component.filter, Component.enrich, Proc.keeps_bind]
  apply keeps_enrichAll h
  intro r m
  cases r with
  | error e => exact hQ _ m
  | ok error =>
    cases error with
    | some error => exact hQ _ m
    | none => exact keeps_judgeAll h (fun r m' => hQ r m')

theorem keeps_prioritize (h : ∀ call : Call rt, call.Executes → rules.Ignores t call) {component : Component}
    {Q : Except Raised (Except Error Int) → Payload rt → σ → Prop} (hQ : ∀ r m, Q r { p with metadata := m } t) :
    Proc.Keeps rules Q component.prioritize p t := by
  unfold Component.prioritize
  cases component.prioritizer with
  | none => exact hQ _ p.metadata
  | some name =>
    rw [Proc.keeps_bind, Proc.keeps_read, Proc.after_ok]
    refine Proc.keeps_ask (h _ trivial) (fun executed => ?_)
    apply keeps_response
    · intro result m
      obtain ⟨data, error⟩ := result
      cases error with
      | some error => exact hQ _ m
      | none => cases data <;> exact hQ _ m
    · exact fun e m => hQ _ m

end

end Linksurf.Pipeline
