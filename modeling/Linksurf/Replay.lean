import Mathlib.Logic.Function.Basic
import Mathlib.Tactic.Common

/-!
# Logs of writes

A log of writes to a table of keys. Where the log ends, a key it mentions has
its last value whatever the table held, so a log may be replayed over a table
that has seen part of it already.
-/
namespace Replay

variable {K V : Type} [DecidableEq K]

/-- Write one entry. -/
def write (table : K → Option V) (e : K × V) : K → Option V := Function.update table e.1 (some e.2)

/-- Write the entries of a log, one after the other. -/
def replay (table : K → Option V) (log : List (K × V)) : K → Option V := log.foldl write table

variable {table table' : K → Option V} {log : List (K × V)} {k : K}

theorem replay_other (h : k ∉ log.map Prod.fst) : replay table log k = table k := by
  induction log generalizing table with
  | nil => rfl
  | cons e log ih =>
    rw [List.map_cons, List.mem_cons, not_or] at h
    calc replay table (e :: log) k = write table e k := ih h.2
      _ = table k := Function.update_of_ne h.1 _ _

theorem replay_mem (table : K → Option V) (h : k ∈ log.map Prod.fst) : ∃ v, (k, v) ∈ log ∧ replay table log k = some v := by
  induction log generalizing table with
  | nil => cases h
  | cons e log ih =>
    by_cases hk : k ∈ log.map Prod.fst
    · obtain ⟨v, hv, hreplay⟩ := ih (write table e) hk
      exact ⟨v, List.mem_cons_of_mem _ hv, hreplay⟩
    · -- the first entry is the last of its key
      have he : k = e.1 := (List.mem_cons.mp h).resolve_right hk
      refine ⟨e.2, he ▸ List.mem_cons_self, ?_⟩
      calc replay table (e :: log) k = write table e k := replay_other hk
        _ = some e.2 := by rw [he, write, Function.update_self]

end Replay
