import Mathlib

/-!
# Positions of a list

What replacing or removing one element does to a list beside another and to
what the elements of a list have.
-/
namespace Positions

variable {α β : Type} {R : α → β → Prop} {l : List α} {l' : List β} {i : Nat} {a : α}

theorem forall₂_getElem? (h : List.Forall₂ R l l') (ha : l[i]? = some a) : ∃ b, l'[i]? = some b ∧ R a b := by
  induction h generalizing i with
  | nil => simp at ha
  | cons hab _ ih =>
    cases i with
    | zero => exact ⟨_, rfl, Option.some.inj ha ▸ hab⟩
    | succ i => exact ih ha

theorem forall₂_set (h : List.Forall₂ R l l') {b : β} (hab : R a b) : List.Forall₂ R (l.set i a) (l'.set i b) := by
  induction h generalizing i with
  | nil => exact .nil
  | cons hcd hrest ih =>
    cases i with
    | zero => exact .cons hab hrest
    | succ i => exact .cons hcd ih

theorem forall₂_concat (h : List.Forall₂ R l l') {b : β} (hab : R a b) : List.Forall₂ R (l ++ [a]) (l' ++ [b]) :=
  List.rel_append h (.cons hab .nil)

/-- A relation between other elements is kept where one is replaced. -/
theorem forall₂_set_mono {R' : α → β → Prop} (h : List.Forall₂ R l l') {b : β} (hab : R' a b)
    (hmono : ∀ j x y, j ≠ i → l[j]? = some x → l'[j]? = some y → R x y → R' x y) :
    List.Forall₂ R' (l.set i a) (l'.set i b) := by
  induction h generalizing i with
  | nil => exact .nil
  | cons hcd hrest ih =>
    cases i with
    | zero =>
      refine .cons hab ?_
      rw [List.forall₂_iff_get]
      refine ⟨hrest.length_eq, ?_⟩
      intro j hj hj'
      exact hmono (j + 1) _ _ (by simp) (List.getElem?_eq_getElem hj) (List.getElem?_eq_getElem hj') (hrest.get hj hj')
    | succ i =>
      refine .cons (hmono 0 _ _ (by simp) rfl rfl hcd) (ih ?_)
      exact fun j x y hne => hmono (j + 1) x y (by simpa using hne)

/-- Of two lists side by side, one position is replaced. -/
theorem mem_zip_set {a' : α} {b' : β} {x : α × β} (h : x ∈ (l.set i a').zip (l'.set i b')) :
    x = (a', b') ∨ x ∈ l.zip l' ∧ ∃ j, j ≠ i ∧ l'[j]? = some x.2 := by
  obtain ⟨j, hj⟩ := List.mem_iff_getElem?.mp h
  obtain ⟨ha, hb⟩ := List.getElem?_zip_eq_some.mp hj
  by_cases he : i = j
  · subst he
    have hi : i < l.length := by simpa using (List.getElem?_eq_some_iff.mp ha).1
    have hi' : i < l'.length := by simpa using (List.getElem?_eq_some_iff.mp hb).1
    rw [List.getElem?_set_self hi] at ha
    rw [List.getElem?_set_self hi'] at hb
    exact .inl (Prod.ext (Option.some.inj ha).symm (Option.some.inj hb).symm)
  · rw [List.getElem?_set_ne he] at ha hb
    exact .inr ⟨List.mem_iff_getElem?.mpr ⟨j, List.getElem?_zip_eq_some.mpr ⟨ha, hb⟩⟩, j, Ne.symm he, hb⟩

theorem mem_zip_set_self {b : β} (ha : l[i]? = some a) (hb : l'[i]? = some b) (a' : α) (b' : β) :
    (a', b') ∈ (l.set i a').zip (l'.set i b') := by
  obtain ⟨hi, -⟩ := List.getElem?_eq_some_iff.mp ha
  obtain ⟨hi', -⟩ := List.getElem?_eq_some_iff.mp hb
  exact List.mem_iff_getElem?.mpr ⟨i, List.getElem?_zip_eq_some.mpr
    ⟨List.getElem?_set_self hi, List.getElem?_set_self hi'⟩⟩

theorem mem_zip_set_of_ne {j : Nat} {x : α × β} (hne : j ≠ i) (hx : (l.zip l')[j]? = some x) (a' : α) (b' : β) :
    x ∈ (l.set i a').zip (l'.set i b') := by
  obtain ⟨ha, hb⟩ := List.getElem?_zip_eq_some.mp hx
  exact List.mem_iff_getElem?.mpr ⟨j, List.getElem?_zip_eq_some.mpr
    ⟨by rw [List.getElem?_set_ne hne.symm, ha], by rw [List.getElem?_set_ne hne.symm, hb]⟩⟩

theorem mem_zip_concat {b : β} {x : α × β} (hlength : l.length = l'.length) (h : x ∈ (l ++ [a]).zip (l' ++ [b])) :
    x ∈ l.zip l' ∨ x = (a, b) := by
  rw [List.zip_append hlength] at h
  exact (List.mem_append.mp h).imp_right List.mem_singleton.mp

variable (f : α → Option β)

/-- What an element has beside what the others have. -/
theorem filterMap_perm (h : l[i]? = some a) : (l.filterMap f).Perm ((f a).toList ++ (l.eraseIdx i).filterMap f) := by
  obtain ⟨hi, rfl⟩ := List.getElem?_eq_some_iff.mp h
  have hperm := (List.getElem_cons_eraseIdx_perm hi).symm.filterMap f
  rw [List.filterMap_cons] at hperm
  cases hf : f l[i] with
  | none => rwa [hf] at hperm
  | some b => rwa [hf] at hperm

theorem filterMap_concat (l : List α) (a : α) : (l ++ [a]).filterMap f = l.filterMap f ++ (f a).toList := by
  rw [List.filterMap_append, List.filterMap_cons]
  cases f a <;> rfl

end Positions
