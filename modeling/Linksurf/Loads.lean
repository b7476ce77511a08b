import Mathlib.Algebra.BigOperators.Group.Finset.Basic
import Mathlib.Algebra.BigOperators.Group.Finset.Piecewise
import Mathlib.Algebra.GroupWithZero.Nat
import Mathlib.Algebra.Order.BigOperators.Group.Finset
import Mathlib.Data.Finset.Dedup
import Mathlib.Tactic.Common

/-!
# Loads, targets and unit moves

Workers carry natural loads and have natural targets. A unit is given to a
worker or moved between two of them. The excess counts the units above target;
moving one from an overloaded to an underloaded worker lowers it by exactly
one, and with equal totals such a pair exists until every load is its target.
-/
namespace Loads

open Finset

variable {W : Type}

def total (R : Finset W) (loads : W → Nat) : Nat := ∑ w ∈ R, loads w

/-- Units above target, summed over the workers. -/
def excess (R : Finset W) (targets loads : W → Nat) : Nat := ∑ w ∈ R, (loads w - targets w)

variable {R : Finset W} {targets loads loads' : W → Nat} {s d w : W}

/-- Pigeonhole: a smaller total leaves somebody below target. -/
theorem exists_under (h : total R loads < total R targets) : ∃ d ∈ R, loads d < targets d :=
  Finset.exists_lt_of_sum_lt h

/-- With equal totals somebody above target leaves somebody below it. -/
theorem exists_under_of_over (htotal : total R loads = total R targets) (hs : s ∈ R)
    (hover : targets s < loads s) : ∃ d ∈ R, loads d < targets d := by
  by_contra hno
  push Not at hno
  have hlt : total R targets < total R loads := Finset.sum_lt_sum hno ⟨s, hs, hover⟩
  omega

/-- With equal totals and nobody above target every load is its target. -/
theorem eq_targets (htotal : total R loads = total R targets)
    (hno : ∀ w ∈ R, loads w ≤ targets w) : ∀ w ∈ R, loads w = targets w := by
  intro w hw
  by_contra hne
  have hlt : total R loads < total R targets :=
    Finset.sum_lt_sum hno ⟨w, hw, lt_of_le_of_ne (hno w hw) hne⟩
  omega

theorem excess_eq_zero (hno : ∀ w ∈ R, loads w ≤ targets w) : excess R targets loads = 0 :=
  Finset.sum_eq_zero (fun w hw => Nat.sub_eq_zero_of_le (hno w hw))

theorem le_of_excess_eq_zero (h : excess R targets loads = 0) (hw : w ∈ R) : loads w ≤ targets w :=
  Nat.sub_eq_zero_iff_le.mp (Finset.sum_eq_zero_iff.mp h w hw)

theorem excess_le_total : excess R targets loads ≤ total R loads :=
  Finset.sum_le_sum (fun w _ => Nat.sub_le (loads w) (targets w))

theorem excess_congr (h : ∀ w ∈ R, loads w = loads' w) :
    excess R targets loads = excess R targets loads' :=
  Finset.sum_congr rfl (fun w hw => by rw [h w hw])

theorem total_congr (h : ∀ w ∈ R, loads w = loads' w) : total R loads = total R loads' :=
  Finset.sum_congr rfl h

/-! ## Giving and moving one unit -/

variable [DecidableEq W]

def give (loads : W → Nat) (d : W) : W → Nat := Function.update loads d (loads d + 1)

def move (loads : W → Nat) (s d : W) : W → Nat := give (Function.update loads s (loads s - 1)) d

@[simp] theorem give_same : give loads d d = loads d + 1 := by simp [give]
theorem give_other (h : w ≠ d) : give loads d w = loads w := by simp [give, h]

theorem move_destination (h : s ≠ d) : move loads s d d = loads d + 1 := by simp [move, h.symm]
theorem move_source (h : s ≠ d) : move loads s d s = loads s - 1 := by
  rw [move, give_other h]; simp
theorem move_other (hs : w ≠ s) (hd : w ≠ d) : move loads s d w = loads w := by
  rw [move, give_other hd]; simp [hs]

/-- A sum over the workers changes by one summand when one load changes. -/
theorem sum_update (loads : W → Nat) (f : W → Nat → Nat) (hw : w ∈ R) (n : Nat) :
    (∑ v ∈ R, f v (Function.update loads w n v)) + f w (loads w) =
      (∑ v ∈ R, f v (loads v)) + f w n := by
  rw [← Finset.add_sum_erase R _ hw, ← Finset.add_sum_erase R (fun v => f v (loads v)) hw]
  have he : ∑ v ∈ R.erase w, f v (Function.update loads w n v) = ∑ v ∈ R.erase w, f v (loads v) := by
    refine Finset.sum_congr rfl (fun v hv => ?_)
    rw [Function.update_of_ne (Finset.ne_of_mem_erase hv)]
  simp only [Function.update_self, he]
  omega

theorem total_give (hd : d ∈ R) : total R (give loads d) = total R loads + 1 := by
  have h := sum_update loads (fun _ n => n) hd (loads d + 1)
  unfold total give
  omega

theorem excess_give (hd : d ∈ R) (hlt : loads d < targets d) :
    excess R targets (give loads d) = excess R targets loads := by
  have h := sum_update loads (fun v n => n - targets v) hd (loads d + 1)
  unfold excess give
  omega

theorem total_move (hs : s ∈ R) (hd : d ∈ R) (hpos : 0 < loads s) :
    total R (move loads s d) = total R loads := by
  have h := sum_update loads (fun _ n => n) hs (loads s - 1)
  rw [move, total_give hd]
  unfold total
  omega

theorem excess_move (hs : s ∈ R) (hd : d ∈ R) (hover : targets s < loads s)
    (hunder : loads d < targets d) :
    excess R targets (move loads s d) + 1 = excess R targets loads := by
  have hne : d ≠ s := by rintro rfl; omega
  have h := sum_update loads (fun v n => n - targets v) hs (loads s - 1)
  rw [move, excess_give hd (by rwa [Function.update_of_ne hne])]
  unfold excess
  omega

/-! ## Loads counted from a list of units -/

/-- Counting each worker's units and summing counts the units that have one of
the workers as owner. -/
theorem total_count {α : Type} (owner : α → Option W) (units : List α) :
    total R (fun w => units.countP (fun u => owner u = some w)) =
      units.countP (fun u => (owner u).any (· ∈ R)) := by
  induction units with
  | nil => simp [total]
  | cons u us ih =>
    have hone : (∑ w ∈ R, if owner u = some w then 1 else 0) =
        if (owner u).any (· ∈ R) then 1 else 0 := by
      cases owner u with
      | none => simp
      | some v => simp [Finset.sum_ite_eq]
    unfold total at ih ⊢
    simp only [List.countP_cons, Finset.sum_add_distrib, ih, decide_eq_true_eq, hone]

/-- Even shares of `n` units by position in a list: `n / k`, and one more for
the first `n % k`. -/
def share (ids : List W) (n : Nat) (w : W) : Nat :=
  n / ids.length + if ids.idxOf w < n % ids.length then 1 else 0

theorem sum_indicator {m k : Nat} (h : m ≤ k) :
    ((List.range k).map (fun i => if i < m then 1 else 0)).sum = m := by
  induction k generalizing m with
  | zero => simpa using (Nat.le_zero.mp h).symm
  | succ k ih =>
    rw [List.range_succ, List.map_append, List.sum_append]
    rcases Nat.lt_or_ge k m with hk | hk
    · have hm : m = k + 1 := by omega
      subst hm
      have hall : (List.range k).map (fun i => if i < k + 1 then 1 else 0) =
          (List.range k).map (fun i => if i < k then 1 else 0) := by
        refine List.map_congr_left (fun i hi => ?_)
        have hik := List.mem_range.mp hi
        simp [hik, Nat.lt_succ_of_lt hik]
      rw [hall, ih (le_refl k)]
      simp
    · rw [ih hk]
      simp [Nat.not_lt.mpr hk]

theorem total_share {ids : List W} (hnodup : ids.Nodup) (hne : ids ≠ []) (n : Nat) :
    total ids.toFinset (share ids n) = n := by
  have hlen : 0 < ids.length := List.length_pos_iff.mpr hne
  have hmap : ids.map (share ids n) =
      (List.range ids.length).map (fun i => n / ids.length + if i < n % ids.length then 1 else 0) := by
    refine List.ext_getElem (by simp) (fun i hi hi' => ?_)
    simp only [List.getElem_map, List.getElem_range, share]
    rw [hnodup.idxOf_getElem]
  have hsum : total ids.toFinset (share ids n) = (ids.map (share ids n)).sum := by
    rw [total, List.sum_toFinset _ hnodup]
  rw [hsum, hmap, List.sum_map_add, sum_indicator (Nat.mod_lt n hlen).le]
  simpa using Nat.div_add_mod n ids.length

theorem share_le_succ (ids : List W) (n : Nat) (v w : W) : share ids n v ≤ share ids n w + 1 := by
  unfold share
  split <;> split <;> omega

end Loads
