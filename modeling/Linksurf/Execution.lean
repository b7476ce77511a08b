import Mathlib.Tactic.Common

/-!
# Runs of an executable transition function

A system is a partial function from states and actions to states. Runs may be
restricted to steps that meet a condition on the state before the step and the
action; an invariant needs to survive such steps only.
-/
namespace Execution

variable {S A : Type} (step : S → A → Option S)

/-- Take the listed actions in order. -/
def run : S → List A → Option S
  | s, [] => some s
  | s, a :: as => (step s a).bind (fun t => run t as)

/-- The states reached from `s₀` by steps that all meet `P`. -/
inductive Reaches (P : S → A → Prop) (s₀ : S) : S → Prop
  | refl : Reaches P s₀ s₀
  | tail {s t : S} {a : A} : Reaches P s₀ s → P s a → step s a = some t → Reaches P s₀ t

/-- No condition on the steps. -/
def Free : S → A → Prop := fun _ _ => True

variable {step}

/-- What holds at the start and survives every permitted step holds throughout. -/
theorem Reaches.invariant {P : S → A → Prop} {s₀ s : S} (I : S → Prop)
    (h : Reaches step P s₀ s) (h₀ : I s₀)
    (hstep : ∀ s a t, I s → P s a → step s a = some t → I t) : I s := by
  induction h with
  | refl => exact h₀
  | tail _ hp hs ih => exact hstep _ _ _ ih hp hs

theorem Reaches.trans {P : S → A → Prop} {s₀ s t : S} (h : Reaches step P s₀ s)
    (h' : Reaches step P s t) : Reaches step P s₀ t := by
  induction h' with
  | refl => exact h
  | tail _ hp hs ih => exact .tail ih hp hs

/-- A condition that follows from another one where an invariant holds. -/
theorem Reaches.weaken {P Q : S → A → Prop} {s₀ s : S} (I : S → Prop) (h : Reaches step P s₀ s) (h₀ : I s₀)
    (hstep : ∀ s a t, I s → P s a → step s a = some t → Q s a ∧ I t) : Reaches step Q s₀ s := by
  have hboth : Reaches step Q s₀ s ∧ I s := by
    induction h with
    | refl => exact ⟨.refl, h₀⟩
    | tail _ hp hs ih =>
      obtain ⟨hreaches, hi⟩ := ih
      obtain ⟨hq, ht⟩ := hstep _ _ _ hi hp hs
      exact ⟨hreaches.tail hq hs, ht⟩
  exact hboth.1

/-- Steps cut off where a test on the state and the action fails. -/
def guarded (step : S → A → Option S) (guard : S → A → Bool) (s : S) (a : A) : Option S :=
  if guard s a then step s a else none

/-- An executed list of tested actions is a run under what the test implies. -/
theorem reaches_of_run {P : S → A → Prop} {guard : S → A → Bool} (hguard : ∀ s a, guard s a = true → P s a)
    {s₀ s : S} {as : List A} (h : run (guarded step guard) s₀ as = some s) : Reaches step P s₀ s := by
  induction as generalizing s₀ with
  | nil => cases h; exact .refl
  | cons a as ih =>
    obtain ⟨t, ht, hrun⟩ := Option.bind_eq_some_iff.mp h
    unfold guarded at ht
    split at ht
    · rename_i hg
      exact (Reaches.tail .refl (hguard _ _ hg) ht).trans (ih hrun)
    · cases ht

variable (step)

/-- Evaluating a run and a test of its last state exhibits a reachable state. -/
theorem exists_reaches {P : S → A → Prop} (s₀ : S) (guard : S → A → Bool)
    (hguard : ∀ s a, guard s a = true → P s a) (as : List A) (test : S → Bool)
    (h : (run (guarded step guard) s₀ as).any test = true) : ∃ s, Reaches step P s₀ s ∧ test s = true := by
  obtain ⟨s, hs, ht⟩ := (Option.any_eq_true test _).mp h
  exact ⟨s, reaches_of_run hguard hs, ht⟩

/-- The same without a condition on the steps. -/
theorem exists_reaches_free (s₀ : S) (as : List A) (test : S → Bool)
    (h : (run (guarded step (fun _ _ => true)) s₀ as).any test = true) :
    ∃ s, Reaches step Free s₀ s ∧ test s = true :=
  exists_reaches step s₀ (fun _ _ => true) (fun _ _ _ => trivial) as test h

end Execution
