import Mathlib.Algebra.Order.Field.Rat
import Mathlib.Data.List.Basic
import Mathlib.Tactic.Common

/-!
# Constants and records

`linksurf/common/constants.py` and the worker and bucket records of
`linksurf/common/models.py`. Times are exact rational seconds. Of a worker
record only the fields the coordination protocol reads are kept, and of a
bucket record everything but the `updated_at` stamp, which nothing reads.
-/
namespace Linksurf

/-- Seconds since an arbitrary epoch. -/
abbrev Time := ℚ

abbrev WorkerId := String

def BUCKET_COUNT : Nat := 256

/-- `MAX_BUCKET_MOVES` is either `"all"` or a positive integer. -/
inductive BucketMoves where
  | all
  | limit (n : Nat)
  deriving DecidableEq, Repr

def WORKER_LEASE_SECONDS : Time := 120

inductive WorkerStatus where
  | ready | draining
  deriving DecidableEq, Repr

inductive BucketState where
  | unassigned | idle | active | draining
  deriving DecidableEq, Repr

structure WorkerModel where
  id : WorkerId
  status : WorkerStatus
  expiresAt : Time
  deriving DecidableEq

structure BucketModel where
  id : Nat
  state : BucketState := .unassigned
  ownerId : Option WorkerId := none
  successorId : Option WorkerId := none
  revision : Nat := 0
  deriving DecidableEq, Repr

/-- A bucket the owner may still fetch from. -/
def BucketState.held (state : BucketState) : Prop := state = .idle ∨ state = .active

instance (state : BucketState) : Decidable state.held :=
  inferInstanceAs (Decidable (state = .idle ∨ state = .active))

@[simp] theorem held_idle : BucketState.idle.held := .inl rfl
@[simp] theorem held_active : BucketState.active.held := .inr rfl
@[simp] theorem not_held_unassigned : ¬ BucketState.unassigned.held := by simp [BucketState.held]
@[simp] theorem not_held_draining : ¬ BucketState.draining.held := by simp [BucketState.held]

/-- The shape every stored bucket record keeps: no owner exactly when
unassigned, and a successor, different from the owner, exactly when draining. -/
structure BucketModel.WellFormed (r : BucketModel) : Prop where
  unassigned : r.state = .unassigned ↔ r.ownerId = none
  draining : r.state = .draining ↔ r.successorId ≠ none
  distinct : r.successorId ≠ none → r.successorId ≠ r.ownerId

end Linksurf
