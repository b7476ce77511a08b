import Mathlib.Data.List.Nodup
import Mathlib.Data.List.Perm.Subperm
import Mathlib.Logic.Relation
import Mathlib.Tactic.Common

/-!
# Forests of parent pointers

Elements that name their parent, the length of the chain of parents above an
element, and the traversal that keeps a list of elements to visit, each with the
depth it was found at. In whatever order new elements enter that list, a forest
is visited once at its depths.
-/
namespace Forest

universe u

variable {α : Type u} (parent : α → Option α)

/-- The chain of parents above an element has this length. -/
inductive Depth : α → Nat → Prop
  | root {x : α} (h : parent x = none) : Depth x 0
  | child {x y : α} {n : Nat} (h : parent x = some y) (hy : Depth y n) : Depth x (n + 1)

/-- Following parents from the first element leads to the second. -/
def Leads : α → α → Prop := Relation.ReflTransGen (fun x y => parent x = some y)

variable {parent}

theorem Depth.unique {x : α} {m n : Nat} (hm : Depth parent x m) (hn : Depth parent x n) : m = n := by
  induction hm generalizing n with
  | root h =>
    cases hn with
    | root _ => rfl
    | child h' _ => rw [h] at h'; cases h'
  | child h _ ih =>
    cases hn with
    | root h' => rw [h] at h'; cases h'
    | child h' hy =>
      obtain rfl := Option.some.inj (h.symm.trans h')
      rw [ih hy]

theorem Depth.zero_iff {x : α} {n : Nat} (h : Depth parent x n) : n = 0 ↔ parent x = none := by
  cases h with
  | root h => simp [h]
  | child h _ => simp [h]

/-- The length of the chain, 0 where the parents go on forever. -/
noncomputable def depth (parent : α → Option α) (x : α) : Nat :=
  open Classical in if h : ∃ n, Depth parent x n then h.choose else 0

theorem Depth.depth_eq {x : α} {n : Nat} (h : Depth parent x n) : depth parent x = n := by
  have hex : ∃ n, Depth parent x n := ⟨n, h⟩
  rw [depth, dif_pos hex]
  exact hex.choose_spec.unique h

/-- Where every step to a parent lowers a measure, every chain has a length. -/
theorem exists_depth (measure : α → Nat) {S : α → Prop}
    (hparent : ∀ x y, S x → parent x = some y → S y ∧ measure y < measure x) (x : α) (hx : S x) :
    ∃ n, Depth parent x n := by
  induction hm : measure x using Nat.strongRecOn generalizing x with
  | _ m ih =>
    cases hp : parent x with
    | none => exact ⟨0, .root hp⟩
    | some y =>
      obtain ⟨hy, hlt⟩ := hparent x y hx hp
      obtain ⟨n, hn⟩ := ih (measure y) (hm ▸ hlt) y hy rfl
      exact ⟨n + 1, .child hp hn⟩

/-! ## Traversal -/

/-- Visit the first element of the list and `put` its children with the rest;
`none` if the fuel runs out first. -/
def walk (children : α → List α) (put : List (α × Nat) → List (α × Nat) → List (α × Nat)) :
    Nat → List (α × Nat) → Option (List (α × Nat))
  | _, [] => some []
  | 0, _ :: _ => none
  | fuel + 1, (x, depth) :: rest =>
    (walk children put fuel (put rest ((children x).map (fun child => (child, depth + 1))))).map ((x, depth) :: ·)

section

variable {children : α → List α} {put : List (α × Nat) → List (α × Nat) → List (α × Nat)} {S : List α}

/-- The elements to visit are the unvisited ones with no parent or a visited one. -/
structure Frontier (parent : α → Option α) (S visited : List α) (work : List (α × Nat)) : Prop where
  nodup : (visited ++ work.map Prod.fst).Nodup
  subset : ∀ x ∈ visited ++ work.map Prod.fst, x ∈ S
  mem : ∀ x ∈ S, x ∈ visited ++ work.map Prod.fst ↔ parent x = none ∨ ∃ y ∈ visited, parent x = some y
  depth : ∀ w ∈ work, Depth parent w.1 w.2

/-- The children of an element, all of them in the list. -/
structure Children (parent : α → Option α) (S : List α) (children : α → List α) : Prop where
  nodup : ∀ x ∈ S, (children x).Nodup
  mem : ∀ x ∈ S, ∀ c, c ∈ children x ↔ c ∈ S ∧ parent c = some x

theorem Frontier.step {visited : List α} {x : α} {d : Nat} {rest : List (α × Nat)}
    (h : Frontier parent S visited ((x, d) :: rest)) (hchildren : Children parent S children)
    (hput : ∀ rest new, (put rest new).Perm (rest ++ new)) :
    Frontier parent S (visited ++ [x]) (put rest ((children x).map (fun child => (child, d + 1)))) := by
  have hxS : x ∈ S := h.subset x (by simp)
  obtain ⟨hv, hw, hdisj⟩ := List.nodup_append'.mp h.nodup
  have hxv : x ∉ visited := fun hx => hdisj hx (by simp)
  have hperm : ((visited ++ [x]) ++ (put rest ((children x).map (fun child => (child, d + 1)))).map Prod.fst).Perm
      ((visited ++ (x :: rest.map Prod.fst)) ++ children x) := by
    have hfirst := ((hput rest ((children x).map (fun child => (child, d + 1)))).map Prod.fst).append_left (visited ++ [x])
    simpa [Function.comp_def] using hfirst
  -- a child of `x` is new: nobody found it through another parent
  have hnew : ∀ c ∈ children x, c ∉ visited ++ (x :: rest.map Prod.fst) := by
    intro c hc hold
    obtain ⟨hcS, hcx⟩ := (hchildren.mem x hxS c).mp hc
    obtain hnone | ⟨y, hy, hparent⟩ := (h.mem c hcS).mp hold
    · rw [hcx] at hnone
      cases hnone
    · obtain rfl := Option.some.inj (hcx.symm.trans hparent)
      exact hxv hy
  constructor
  · rw [hperm.nodup_iff, List.nodup_append']
    exact ⟨h.nodup, hchildren.nodup x hxS, fun c hold hc => hnew c hc hold⟩
  · intro y hy
    obtain hy | hy := List.mem_append.mp (hperm.mem_iff.mp hy)
    · exact h.subset y hy
    · exact ((hchildren.mem x hxS y).mp hy).1
  · intro y hyS
    rw [hperm.mem_iff, List.mem_append, hchildren.mem x hxS]
    constructor
    · rintro (hy | ⟨-, hy⟩)
      · obtain hnone | ⟨z, hz, hparent⟩ := (h.mem y hyS).mp hy
        · exact .inl hnone
        · exact .inr ⟨z, List.mem_append_left _ hz, hparent⟩
      · exact .inr ⟨x, by simp, hy⟩
    · rintro (hnone | ⟨z, hz, hparent⟩)
      · exact .inl ((h.mem y hyS).mpr (.inl hnone))
      · obtain hz | hz := List.mem_append.mp hz
        · exact .inl ((h.mem y hyS).mpr (.inr ⟨z, hz, hparent⟩))
        · rw [List.mem_singleton.mp hz] at hparent
          exact .inr ⟨hyS, hparent⟩
  · intro w hw
    obtain hw | hw := List.mem_append.mp ((hput _ _).mem_iff.mp hw)
    · exact h.depth w (List.mem_cons_of_mem _ hw)
    · obtain ⟨c, hc, rfl⟩ := List.mem_map.mp hw
      exact .child ((hchildren.mem x hxS c).mp hc).2 (h.depth (x, d) List.mem_cons_self)

/-- With nothing left to visit, everything was visited. -/
theorem Frontier.all {visited : List α} (h : Frontier parent S visited [])
    (hclosed : ∀ x ∈ S, ∀ y, parent x = some y → y ∈ S) {x : α} {n : Nat} (hx : x ∈ S) (hn : Depth parent x n) :
    x ∈ visited := by
  have hvisited (x : α) (hx : x ∈ S) (hfound : parent x = none ∨ ∃ y ∈ visited, parent x = some y) : x ∈ visited := by
    simpa using (h.mem x hx).mpr hfound
  induction hn with
  | root hnone => exact hvisited _ hx (.inl hnone)
  | child hparent _ ih => exact hvisited _ hx (.inr ⟨_, ih (hclosed _ hx _ hparent), hparent⟩)

theorem Frontier.done {visited : List α} (h : Frontier parent S visited []) (hS : S.Nodup)
    (hclosed : ∀ x ∈ S, ∀ y, parent x = some y → y ∈ S) (hdepth : ∀ x ∈ S, ∃ n, Depth parent x n) :
    visited.Perm S := by
  have hsubset : ∀ x ∈ visited, x ∈ S := fun x hx => h.subset x (List.mem_append_left _ hx)
  apply (List.perm_ext_iff_of_nodup (List.nodup_append'.mp h.nodup).1 hS).mpr
  intro x
  refine ⟨hsubset x, fun hx => ?_⟩
  obtain ⟨n, hn⟩ := hdepth x hx
  exact h.all hclosed hx hn

theorem Frontier.walk {visited : List α} {work : List (α × Nat)} (h : Frontier parent S visited work)
    (hchildren : Children parent S children) (hput : ∀ rest new, (put rest new).Perm (rest ++ new)) (hS : S.Nodup)
    (hclosed : ∀ x ∈ S, ∀ y, parent x = some y → y ∈ S) (hdepth : ∀ x ∈ S, ∃ n, Depth parent x n)
    {fuel : Nat} (hfuel : S.length ≤ visited.length + fuel) :
    ∃ visits, walk children put fuel work = some visits ∧ (visited ++ visits.map Prod.fst).Perm S ∧
      ∀ v ∈ visits, Depth parent v.1 v.2 := by
  induction fuel generalizing visited work with
  | zero =>
    cases work with
    | nil =>
      exact ⟨[], rfl, by simpa using h.done hS hclosed hdepth, by simp⟩
    | cons w rest =>
      have hlength := (List.Nodup.subperm h.nodup (fun x hx => h.subset x hx)).length_le
      simp at hlength
      omega
  | succ fuel ih =>
    cases work with
    | nil =>
      exact ⟨[], rfl, by simpa using h.done hS hclosed hdepth, by simp⟩
    | cons w rest =>
      obtain ⟨x, d⟩ := w
      obtain ⟨visits, hwalk, hperm, hdepths⟩ := ih (h.step hchildren hput) (by simp; omega)
      refine ⟨(x, d) :: visits, by simp [Forest.walk, hwalk], by simpa using hperm, ?_⟩
      intro v hv
      obtain rfl | hv := List.mem_cons.mp hv
      · exact h.depth _ List.mem_cons_self
      · exact hdepths v hv

/-- A traversal from the roots ends after as many visits as there are elements;
it visits each of them once, at its depth. -/
theorem walk_visits {roots : List α} (hroots : roots.Nodup) (hmem : ∀ x, x ∈ roots ↔ x ∈ S ∧ parent x = none)
    (hchildren : Children parent S children) (hput : ∀ rest new, (put rest new).Perm (rest ++ new)) (hS : S.Nodup)
    (hclosed : ∀ x ∈ S, ∀ y, parent x = some y → y ∈ S) (hdepth : ∀ x ∈ S, ∃ n, Depth parent x n)
    {fuel : Nat} (hfuel : S.length ≤ fuel) :
    ∃ visits, walk children put fuel (roots.map (fun x => (x, 0))) = some visits ∧ (visits.map Prod.fst).Perm S ∧
      ∀ v ∈ visits, Depth parent v.1 v.2 := by
  have hstart : (roots.map (fun x => (x, 0))).map Prod.fst = roots := by simp [Function.comp_def]
  have h : Frontier parent S [] (roots.map (fun x => (x, 0))) := by
    constructor
    · rw [hstart]
      exact hroots
    · intro x hx
      rw [hstart] at hx
      exact ((hmem x).mp hx).1
    · intro x hx
      rw [hstart]
      simp [hmem, hx]
    · intro w hw
      obtain ⟨x, hx, rfl⟩ := List.mem_map.mp hw
      exact .root ((hmem x).mp hx).2
  simpa using h.walk hchildren hput hS hclosed hdepth (by simpa using hfuel)

end

end Forest
