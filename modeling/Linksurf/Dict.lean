import Mathlib.Algebra.GroupWithZero.Nat
import Mathlib.Data.List.Induction
import Mathlib.Data.List.Nodup
import Mathlib.Tactic.Common

/-!
# Insertion-ordered dictionaries

A dictionary that iterates in insertion order: assigning to a key that is
present keeps its position, assigning to a new key appends it.
-/
namespace Dicts

theorem eraseDups_concat {α : Type} [DecidableEq α] (xs : List α) (x : α) :
    (xs ++ [x]).eraseDups = if x ∈ xs then xs.eraseDups else xs.eraseDups ++ [x] := by
  rw [List.eraseDups_append]
  split
  · rename_i hmem
    simp [List.removeAll, hmem]
  · rename_i hmem
    simp [List.removeAll, hmem, List.eraseDups_cons]

structure Dict (K V : Type) where
  entries : List (K × V)
  nodup : (entries.map Prod.fst).Nodup

namespace Dict

variable {K V : Type}

@[ext] theorem ext {d e : Dict K V} (h : d.entries = e.entries) : d = e := by
  cases d
  cases e
  cases h
  rfl

def empty : Dict K V := ⟨[], .nil⟩

def keys (d : Dict K V) : List K := d.entries.map Prod.fst

def size (d : Dict K V) : Nat := d.entries.length

variable [DecidableEq K]

def get? (d : Dict K V) (k : K) : Option V := (d.entries.find? (fun e => e.1 = k)).map Prod.snd

/-- Replace the value under `k`, where `k` is present. -/
def replaceAt (k : K) (v : V) (e : K × V) : K × V := if e.1 = k then (k, v) else e

@[simp] theorem replaceAt_fst (k : K) (v : V) (e : K × V) : (replaceAt k v e).1 = e.1 := by
  unfold replaceAt
  split
  · rename_i h; exact h.symm
  · rfl

theorem map_fst_replaceAt (k : K) (v : V) (entries : List (K × V)) :
    (entries.map (replaceAt k v)).map Prod.fst = entries.map Prod.fst := by
  rw [List.map_map]
  exact List.map_congr_left (fun e _ => replaceAt_fst k v e)

/-- `d[k] = v`. -/
def set (d : Dict K V) (k : K) (v : V) : Dict K V :=
  if h : k ∈ d.keys then ⟨d.entries.map (replaceAt k v), by rw [map_fst_replaceAt]; exact d.nodup⟩
  else ⟨d.entries ++ [(k, v)], by
    rw [List.map_append, List.nodup_append']
    exact ⟨d.nodup, by simp, List.disjoint_singleton.mpr h⟩⟩

/-- `d.pop(k, None)`. -/
def erase (d : Dict K V) (k : K) : Dict K V :=
  ⟨d.entries.filter (fun e => e.1 ≠ k), d.nodup.sublist (List.filter_sublist.map _)⟩

theorem get?_eq_some_iff {d : Dict K V} {k : K} {v : V} :
    d.get? k = some v ↔ (k, v) ∈ d.entries := by
  obtain ⟨entries, hn⟩ := d
  simp only [get?]
  induction entries with
  | nil => simp
  | cons e es ih =>
    obtain ⟨hnot, hn⟩ := List.nodup_cons.mp hn
    by_cases he : e.1 = k
    · obtain ⟨k', v'⟩ := e
      obtain rfl : k' = k := he
      have hout : (k', v) ∉ es := fun h => hnot (List.mem_map.mpr ⟨_, h, rfl⟩)
      simp [hout, eq_comm]
    · have hne : (k, v) ≠ e := fun h => he (congrArg Prod.fst h).symm
      simpa [he, hne] using ih hn

theorem get?_eq_none_iff {d : Dict K V} {k : K} : d.get? k = none ↔ k ∉ d.keys := by
  simp only [get?, keys, Option.map_eq_none_iff, List.find?_eq_none, List.mem_map, decide_eq_true_eq]
  exact ⟨fun h ⟨e, he, hk⟩ => h e he hk, fun h e he hk => h ⟨e, he, hk⟩⟩

theorem mem_keys_iff {d : Dict K V} {k : K} : k ∈ d.keys ↔ ∃ v, d.get? k = some v := by
  rw [← Option.ne_none_iff_exists', ne_eq, get?_eq_none_iff, not_not]

theorem mem_set {d : Dict K V} {k k' : K} {v v' : V} :
    (k', v') ∈ (d.set k v).entries ↔ (k' = k ∧ v' = v) ∨ (k' ≠ k ∧ (k', v') ∈ d.entries) := by
  unfold set
  split
  · rename_i h
    simp only [List.mem_map]
    constructor
    · rintro ⟨⟨a, b⟩, hab, he⟩
      by_cases hak : a = k
      · subst hak
        simp only [replaceAt, if_true, Prod.mk.injEq] at he
        exact .inl ⟨he.1.symm, he.2.symm⟩
      · simp only [replaceAt, hak, if_false, Prod.mk.injEq] at he
        obtain ⟨rfl, rfl⟩ := he
        exact .inr ⟨hak, hab⟩
    · rintro (⟨rfl, rfl⟩ | ⟨hne, hmem⟩)
      · obtain ⟨e, he, hfst⟩ := List.mem_map.mp h
        exact ⟨e, he, by simp [replaceAt, hfst]⟩
      · exact ⟨_, hmem, by simp [replaceAt, hne]⟩
  · rename_i h
    have hne : (k', v') ∈ d.entries → k' ≠ k := by
      rintro hmem rfl
      exact h (List.mem_map.mpr ⟨_, hmem, rfl⟩)
    simp only [List.mem_append, List.mem_singleton, Prod.mk.injEq]
    constructor
    · rintro (hmem | he)
      · exact .inr ⟨hne hmem, hmem⟩
      · exact .inl he
    · rintro (he | ⟨-, hmem⟩)
      · exact .inr he
      · exact .inl hmem

/-- Entries under new keys are appended in their order. -/
theorem entries_foldl_set (es : List (K × V)) (d : Dict K V) (h : ((d.entries ++ es).map Prod.fst).Nodup) :
    (es.foldl (fun d e => d.set e.1 e.2) d).entries = d.entries ++ es := by
  induction es generalizing d with
  | nil => simp
  | cons e es ih =>
    have hnew : e.1 ∉ d.keys := by
      rw [List.map_append, List.nodup_append'] at h
      exact fun hmem => h.2.2 hmem (by simp)
    have hset : (d.set e.1 e.2).entries = d.entries ++ [e] := by
      rw [set, dif_neg hnew]
    rw [List.foldl_cons, ih, hset]
    · simp
    · rw [hset]
      simpa using h

/-- Items set one by one in an empty dictionary. -/
theorem foldl_set_entries (m : Dict K V) {d : Dict K V} (h : d.entries = []) :
    m.entries.foldl (fun d e => d.set e.1 e.2) d = m := by
  apply ext
  rw [entries_foldl_set _ _ (by rw [h]; exact m.nodup), h, List.nil_append]

@[simp] theorem get?_set_same (d : Dict K V) (k : K) (v : V) : (d.set k v).get? k = some v :=
  get?_eq_some_iff.mpr (mem_set.mpr (.inl ⟨rfl, rfl⟩))

theorem get?_set_other (d : Dict K V) {k k' : K} (h : k' ≠ k) (v : V) :
    (d.set k v).get? k' = d.get? k' := by
  refine Option.ext (fun v' => ?_)
  rw [get?_eq_some_iff, mem_set, get?_eq_some_iff]
  simp [h]

theorem get?_set (d : Dict K V) (k k' : K) (v : V) :
    (d.set k v).get? k' = if k' = k then some v else d.get? k' := by
  split
  · rename_i h; rw [h, get?_set_same]
  · rename_i h; exact get?_set_other d h v

@[simp] theorem get?_erase_same (d : Dict K V) (k : K) : (d.erase k).get? k = none := by
  simp [get?_eq_none_iff, keys, erase]

theorem get?_erase_other (d : Dict K V) {k k' : K} (h : k' ≠ k) : (d.erase k).get? k' = d.get? k' := by
  refine Option.ext (fun v => ?_)
  simp [get?_eq_some_iff, erase, h]

theorem mem_keys_set {d : Dict K V} {k k' : K} {v : V} : k' ∈ (d.set k v).keys ↔ k' = k ∨ k' ∈ d.keys := by
  simp only [mem_keys_iff, get?_set]
  by_cases h : k' = k <;> simp [h]

theorem mem_keys_erase {d : Dict K V} {k k' : K} : k' ∈ (d.erase k).keys ↔ k' ≠ k ∧ k' ∈ d.keys := by
  by_cases h : k' = k
  · subst h
    simp [mem_keys_iff]
  · simp [mem_keys_iff, get?_erase_other d h, h]

theorem keys_set (d : Dict K V) (k : K) (v : V) : (d.set k v).keys = if k ∈ d.keys then d.keys else d.keys ++ [k] := by
  unfold set
  split
  · exact map_fst_replaceAt k v d.entries
  · simp [keys]

/-- A fold that adds a key for each element has the keys in the order in which
they occur first. -/
theorem keys_foldl {α : Type} {f : Dict K V → α → Dict K V} {key : α → K}
    (hf : ∀ d a, (f d a).keys = if key a ∈ d.keys then d.keys else d.keys ++ [key a]) (l : List α) :
    (l.foldl f .empty).keys = (l.map key).eraseDups := by
  induction l using List.reverseRecOn with
  | nil => rfl
  | append_singleton l a ih =>
    rw [List.foldl_append, List.foldl_cons, List.foldl_nil, hf, ih, List.map_append, List.map_cons, List.map_nil,
      eraseDups_concat]
    simp only [List.mem_eraseDups]

theorem nodup_eraseDups (l : List K) : l.eraseDups.Nodup := by
  have hkeys := keys_foldl (fun d k => keys_set d k ()) l
  rw [List.map_id'] at hkeys
  rw [← hkeys]
  exact Dict.nodup _

/-- The values, in the order of the keys. -/
theorem values_of_keys {α : Type} {d : Dict K V} {l : List α} {f : α → K} {value : α → V} (hkeys : d.keys = l.map f)
    (hvalue : ∀ a ∈ l, ∀ v, d.get? (f a) = some v → v = value a) : d.entries.map Prod.snd = l.map value := by
  have hentries : d.keys.map d.get? = (d.entries.map Prod.snd).map some := by
    rw [keys, List.map_map, List.map_map]
    exact List.map_congr_left (fun e he => get?_eq_some_iff.mpr he)
  have hget : d.keys.map d.get? = (l.map value).map some := by
    rw [hkeys, List.map_map, List.map_map]
    apply List.map_congr_left
    intro a ha
    obtain ⟨v, hv⟩ := mem_keys_iff.mp (hkeys ▸ List.mem_map_of_mem ha : f a ∈ d.keys)
    rw [Function.comp_apply, hv, Function.comp_apply, hvalue a ha v hv]
  exact List.map_injective_iff.mpr (fun _ _ => Option.some.inj) (hentries.symm.trans hget)

/-! ## Sums over the values -/

/-- A quantity summed over all values. -/
def total (f : V → Nat) (d : Dict K V) : Nat := (d.entries.map (fun e => f e.2)).sum

/-- The quantity under one key, zero without an entry. -/
def at? (f : V → Nat) (d : Dict K V) (k : K) : Nat := (d.get? k).elim 0 f

theorem sum_filter_key (f : V → Nat) {entries : List (K × V)} (hn : (entries.map Prod.fst).Nodup) (k : K) :
    ((entries.filter (fun e => e.1 ≠ k)).map (fun e => f e.2)).sum +
      ((entries.find? (fun e => e.1 = k)).map Prod.snd).elim 0 f = (entries.map (fun e => f e.2)).sum := by
  induction entries with
  | nil => rfl
  | cons e es ih =>
    obtain ⟨hnot, hn⟩ := List.nodup_cons.mp hn
    by_cases he : e.1 = k
    · have hrest : es.filter (fun e => e.1 ≠ k) = es := by
        refine List.filter_eq_self.mpr (fun x hx => ?_)
        have hne : x.1 ≠ k := fun h => hnot (he ▸ h ▸ List.mem_map_of_mem hx)
        simp [hne]
      rw [List.filter_cons_of_neg (by simp [he]), hrest, List.find?_cons_of_pos (by simp [he])]
      simp [Nat.add_comm]
    · have := ih hn
      rw [List.filter_cons_of_pos (by simp [he]), List.find?_cons_of_neg (by simp [he])]
      simp only [List.map_cons, List.sum_cons]
      omega

theorem total_erase (f : V → Nat) (d : Dict K V) (k : K) :
    total f (d.erase k) + at? f d k = total f d := sum_filter_key f d.nodup k

theorem sum_replaceAt (f : V → Nat) {entries : List (K × V)} (hn : (entries.map Prod.fst).Nodup) {k : K}
    (h : k ∈ entries.map Prod.fst) (v : V) :
    ((entries.map (replaceAt k v)).map (fun e => f e.2)).sum +
      ((entries.find? (fun e => e.1 = k)).map Prod.snd).elim 0 f = (entries.map (fun e => f e.2)).sum + f v := by
  induction entries with
  | nil => cases h
  | cons e es ih =>
    obtain ⟨hnot, hn⟩ := List.nodup_cons.mp hn
    by_cases he : e.1 = k
    · have hrest : es.map (replaceAt k v) = es := by
        conv_rhs => rw [← List.map_id es]
        refine List.map_congr_left (fun x hx => ?_)
        have hne : x.1 ≠ k := fun h => hnot (he ▸ h ▸ List.mem_map_of_mem hx)
        simp [replaceAt, hne]
      rw [List.map_cons, hrest, List.find?_cons_of_pos (by simp [he])]
      simp only [replaceAt, he, if_true, List.map_cons, List.sum_cons, Option.map_some, Option.elim_some]
      omega
    · have := ih hn ((List.mem_cons.mp h).resolve_left (fun h => he h.symm))
      rw [List.map_cons, List.find?_cons_of_neg (by simp [he])]
      simp only [replaceAt, he, if_false, List.map_cons, List.sum_cons] at this ⊢
      omega

theorem total_set (f : V → Nat) (d : Dict K V) (k : K) (v : V) :
    total f (d.set k v) + at? f d k = total f d + f v := by
  unfold set
  split
  · rename_i h
    exact sum_replaceAt f d.nodup h v
  · rename_i h
    simp [total, at?, get?_eq_none_iff.mpr h]

/-! ## The number of keys -/

theorem size_set (d : Dict K V) (k : K) (v : V) : (d.set k v).size = if k ∈ d.keys then d.size else d.size + 1 := by
  unfold set
  split <;> simp [size]

theorem size_erase (d : Dict K V) (k : K) : (d.erase k).size + (if k ∈ d.keys then 1 else 0) = d.size := by
  have hsize (e : Dict K V) : total (fun _ => 1) e = e.size := by simp [total, size]
  have h := total_erase (fun _ => 1) d k
  rw [hsize, hsize] at h
  cases hk : d.get? k with
  | none => simpa [at?, hk, get?_eq_none_iff.mp hk] using h
  | some v => simpa [at?, hk, mem_keys_iff.mpr ⟨v, hk⟩] using h

end Dict

end Dicts
