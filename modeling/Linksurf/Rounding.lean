import Mathlib.Algebra.Order.Floor.Ring
import Mathlib.Algebra.Ring.Int.Parity
import Mathlib.Tactic.Linarith

/-!
# Rounding to the nearest integer

The integer nearest to a number, and of two the even one.
-/
namespace Rounding

variable {K : Type*} [Field K] [LinearOrder K] [FloorRing K]

def roundEven (q : K) : Int :=
  let rest := q - ⌊q⌋
  if rest < 1 / 2 then ⌊q⌋
  else if 1 / 2 < rest then ⌊q⌋ + 1
  else if ⌊q⌋ % 2 = 0 then ⌊q⌋
  else ⌊q⌋ + 1

theorem floor_le_roundEven (q : K) : ⌊q⌋ ≤ roundEven q := by
  simp only [roundEven]
  split_ifs <;> omega

theorem roundEven_le (q : K) : roundEven q ≤ ⌊q⌋ + 1 := by
  simp only [roundEven]
  split_ifs <;> omega

variable [IsStrictOrderedRing K] {p q : K}

@[simp] theorem roundEven_intCast (n : Int) : roundEven (n : K) = n := by
  simp [roundEven]

/-- Larger numbers are not rounded to smaller ones. -/
theorem roundEven_mono (h : p ≤ q) : roundEven p ≤ roundEven q := by
  have hfloor : ⌊p⌋ ≤ ⌊q⌋ := Int.floor_mono h
  by_cases he : ⌊p⌋ = ⌊q⌋
  · -- between the same two integers the rests are compared
    have hrest : p - ⌊q⌋ ≤ q - ⌊q⌋ := by linarith
    simp only [roundEven, he]
    split_ifs <;> first | omega | (exfalso; linarith)
  · have hp := roundEven_le p
    have hq := floor_le_roundEven q
    omega

theorem le_roundEven {a : Int} (h : (a : K) ≤ q) : a ≤ roundEven q := by
  rw [← roundEven_intCast (K := K) a]
  exact roundEven_mono h

theorem roundEven_le_of_le {b : Int} (h : q ≤ (b : K)) : roundEven q ≤ b := by
  rw [← roundEven_intCast (K := K) b]
  exact roundEven_mono h

/-- No integer is nearer, and a tie is broken towards the even one. -/
theorem roundEven_nearest (q : K) :
    |q - roundEven q| ≤ 1 / 2 ∧ (|q - roundEven q| = 1 / 2 → roundEven q % 2 = 0) := by
  have hlow : (⌊q⌋ : K) ≤ q := Int.floor_le q
  have hhigh : q < ⌊q⌋ + 1 := Int.lt_floor_add_one q
  simp only [roundEven]
  split_ifs with hless hmore heven
  · rw [abs_of_nonneg (by linarith)]
    exact ⟨hless.le, fun he => absurd he hless.ne⟩
  · push_cast
    rw [abs_of_neg (by linarith)]
    refine ⟨by linarith, fun he => ?_⟩
    exfalso
    linarith
  · rw [abs_of_nonneg (by linarith)]
    exact ⟨by linarith, fun _ => heven⟩
  · push_cast
    rw [abs_of_neg (by linarith)]
    exact ⟨by linarith, fun _ => by omega⟩

end Rounding
