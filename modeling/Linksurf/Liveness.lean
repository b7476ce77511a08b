import Linksurf.Execution
import Mathlib.Data.Nat.Find
import Mathlib.Order.WellFounded

/-!
# Infinite runs

What happens sooner or later in an infinite run. Facts are predicates of the
positions of the run, so that they may speak about states and actions; a
measure that is sooner or later smaller gives what it was to give.
-/
namespace Execution

variable {S A : Type} {step : S → A → Option S}

/-- A run without end. -/
structure Behavior (step : S → A → Option S) where
  state : Nat → S
  action : Nat → A
  next : ∀ i, step (state i) (action i) = some (state (i + 1))

/-! ## Positions -/

section

variable {P Q : Nat → Prop} {i j : Nat}

/-- From a position on. -/
def Onward (P : Nat → Prop) (i : Nat) : Prop := ∀ j, i ≤ j → P j

/-- Sooner or later. -/
def Later (P : Nat → Prop) (i : Nat) : Prop := ∃ j, i ≤ j ∧ P j

theorem Later.now (h : P i) : Later P i := ⟨i, le_refl i, h⟩

theorem Later.from (h : Later P j) (hij : i ≤ j) : Later P i := by
  obtain ⟨k, hk, hp⟩ := h
  exact ⟨k, hij.trans hk, hp⟩

theorem Later.imp (h : Later P i) (hpq : ∀ j, i ≤ j → P j → Q j) : Later Q i := by
  obtain ⟨j, hj, hp⟩ := h
  exact ⟨j, hj, hpq j hj hp⟩

theorem Onward.from (h : Onward P i) (hij : i ≤ j) : Onward P j := fun k hk => h k (hij.trans hk)

theorem onward_of_step (h : P i) (hstep : ∀ j, i ≤ j → P j → P (j + 1)) : Onward P i := by
  intro j hj
  induction j, hj using Nat.le_induction with
  | base => exact h
  | succ j hj ih => exact hstep j hj ih

/-- The first position at which it happens. -/
theorem Later.first (h : Later P i) : ∃ j, i ≤ j ∧ P j ∧ ∀ k, i ≤ k → k < j → ¬ P k := by
  classical
  obtain ⟨hle, hp⟩ := Nat.find_spec h
  exact ⟨Nat.find h, hle, hp, fun k hk hlt hpk => Nat.find_min h hlt ⟨hk, hpk⟩⟩

/-- A measure that is sooner or later smaller, until it happens. -/
theorem later_of_measure {β : Type} [Preorder β] [WellFoundedLT β] (μ : Nat → β)
    (h : ∀ j, i ≤ j → ¬ Q j → Later (fun k => Q k ∨ μ k < μ j) j) : Later Q i := by
  have hall : ∀ m, ∀ j, i ≤ j → μ j = m → Later Q j := by
    intro m
    induction m using WellFoundedLT.induction with
    | ind m ih =>
      intro j hj hm
      by_cases hq : Q j
      · exact .now hq
      · obtain ⟨k, hk, hqk | hlt⟩ := h j hj hq
        · exact ⟨k, hk, hqk⟩
        · exact (ih (μ k) (hm ▸ hlt) k (hj.trans hk) rfl).from hk
  exact hall (μ i) i (le_refl i) rfl

/-- Persistent facts, each of which comes, hold together sooner or later. -/
theorem later_all {α : Type} (l : List α) (P : α → Nat → Prop) (h : ∀ a ∈ l, Later (Onward (P a)) i) :
    Later (Onward (fun j => ∀ a ∈ l, P a j)) i := by
  induction l with
  | nil => exact .now (fun j _ a ha => by cases ha)
  | cons a l ih =>
    obtain ⟨j, hj, ha⟩ := h a List.mem_cons_self
    obtain ⟨k, hk, hl⟩ := ih (fun b hb => h b (List.mem_cons_of_mem a hb))
    refine ⟨max j k, hj.trans (le_max_left j k), fun m hm b hb => ?_⟩
    obtain rfl | hb := List.mem_cons.mp hb
    · exact ha m ((le_max_left j k).trans hm)
    · exact hl m ((le_max_right j k).trans hm) b hb

/-- What never grows is the same from some position on. -/
theorem later_constant (μ : Nat → Nat) (h : Onward (fun j => μ (j + 1) ≤ μ j) i) :
    Later (fun j => Onward (fun k => μ k = μ j) j) i := by
  apply later_of_measure μ
  intro j hj hq
  obtain ⟨k, hk, hne⟩ : ∃ k, j ≤ k ∧ μ k ≠ μ j := by
    by_contra hnone
    exact hq (fun k hk => by
      by_contra hne
      exact hnone ⟨k, hk, hne⟩)
  have hle : μ k ≤ μ j := onward_of_step (P := fun k => μ k ≤ μ j) (le_refl _)
    (fun k hk hle => (h k (hj.trans hk)).trans hle) k hk
  exact ⟨k, hk, .inr (by omega)⟩

end

/-! ## States -/

namespace Behavior

variable (b : Behavior step) {i : Nat}

/-- What survives every step holds from then on. -/
theorem onward (I : S → Prop) (h : I (b.state i)) (hstep : ∀ s a t, I s → step s a = some t → I t) :
    Onward (fun j => I (b.state j)) i :=
  onward_of_step h (fun j _ hj => hstep _ _ _ hj (b.next j))

theorem reaches (i : Nat) : Reaches step Free (b.state 0) (b.state i) := by
  induction i with
  | zero => exact .refl
  | succ i ih => exact ih.tail trivial (b.next i)

/-- A finite run before an infinite one. -/
theorem prepend {s₀ : S} {as : List A} (h : run step s₀ as = some (b.state 0)) : ∃ b' : Behavior step, b'.state 0 = s₀ ∧
    (∀ i, i < as.length → as[i]? = some (b'.action i)) ∧
    ∀ i, b'.state (as.length + i) = b.state i ∧ b'.action (as.length + i) = b.action i := by
  induction as generalizing s₀ with
  | nil =>
    cases h
    refine ⟨b, rfl, fun i hi => ?_, fun i => ?_⟩
    · simp at hi
    · simp
  | cons a as ih =>
    obtain ⟨t, ht, hrun⟩ := Option.bind_eq_some_iff.mp h
    obtain ⟨b', hstart, hhead, htail⟩ := ih hrun
    refine ⟨⟨fun i => Nat.casesOn i s₀ b'.state, fun i => Nat.casesOn i a b'.action, fun i => ?_⟩, rfl, fun i hi => ?_, fun i => ?_⟩
    · cases i with
      | zero =>
        rw [← hstart] at ht
        exact ht
      | succ i => exact b'.next i
    · cases i with
      | zero => rfl
      | succ i => exact hhead i (Nat.lt_of_succ_lt_succ hi)
    · have hlen : (a :: as).length + i = (as.length + i) + 1 := by
        rw [List.length_cons]
        omega
      rw [hlen]
      exact htail i

end Behavior

end Execution
