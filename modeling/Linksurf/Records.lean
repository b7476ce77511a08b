import Linksurf.Balancing
import Linksurf.Execution
import Linksurf.Pool

/-!
# Bucket records under any interleaving

Any number of coroutines of any workers, with the coordination lock and all
local state answering as they please. Whatever the order of their database
calls, every record keeps its shape, because each call the protocol can issue
keeps it; that owner and successor differ comes from the comparison of loads
with targets in the move loop. The revision counts the handovers.
-/
namespace Linksurf

open Coroutine Execution Pool

/-! ## What the protocol issues -/

/-- Arguments under which a write leaves the record well formed. -/
def Call.Coherent : Call → Prop
  | .setBucketAssignment _ owner state =>
    (owner = none ∧ state = .unassigned) ∨ (owner ≠ none ∧ state = .idle)
  | .markBucketDraining _ owner successor => owner ≠ successor
  | .syncOwnedBucketStates _ states => ∀ e ∈ states, e.2.held
  | _ => True

/-- `bucket_states` reports buckets as IDLE or ACTIVE; nothing is asked of the
other answers. -/
def Call.Honest : (call : Call) → call.Reply → Prop
  | .bucketStates, states => ∀ e ∈ states, e.2.held
  | _, _ => True

/-- All that a coroutine can issue is coherent. -/
def Coherently {α : Type} (c : Async α) : Prop := c.Issues Call.Honest Call.Coherent (fun _ => True)

section Issued

variable {α β : Type} {moves : BucketMoves} {self : WorkerId} {live ready : List WorkerId}
  {targets : WorkerId → Nat}

theorem coherently_bind {c : Async α} {f : α → Async β} (hc : Coherently c) (hf : ∀ a, Coherently (f a)) :
    Coherently (c >>= f) :=
  Coro.issues_bind hc (fun a _ => hf a)

theorem coherently_ret (a : α) : Coherently (Coro.ret a) := trivial

theorem coherently_await {call : Call} {k : call.Reply → Async α} (hcall : call.Coherent)
    (hk : ∀ r, call.Honest r → Coherently (k r)) : Coherently (await call >>= k) := ⟨hcall, hk⟩

theorem coherently_reclaim (buckets : List BucketModel) : Coherently (reclaim live ready buckets) := by
  induction buckets with
  | nil => exact coherently_ret ()
  | cons bucket rest ih =>
    by_cases hlive : bucket.ownerId.all (· ∈ live)
    · rw [reclaim_cons_live hlive]; exact ih
    · rw [reclaim_cons_dead hlive]
      refine coherently_await ?_ (fun _ _ => ih)
      unfold heir
      split
      · rename_i h
        obtain ⟨successor, hs, -⟩ := (Option.any_eq_true _ _).mp h.2
        exact .inr ⟨by simp [hs], rfl⟩
      · exact .inl ⟨rfl, rfl⟩

theorem coherently_assignFree (buckets : List BucketModel) (b : Balance) :
    Coherently (assignFree ready targets buckets b) := by
  induction buckets generalizing b with
  | nil => exact coherently_ret b
  | cons bucket rest ih =>
    rw [assignFree]
    split
    · exact ih b
    · split
      · exact coherently_ret b
      · exact coherently_await (.inr ⟨by simp, rfl⟩) (fun _ _ => ih _)

/-- The receiver is below its target and the source above: they differ. -/
theorem coherently_moveBuckets {maxMoves : Nat} {state : BucketState} (buckets : List BucketModel)
    (b : Balance) : Coherently (moveBuckets ready targets maxMoves state buckets b) := by
  induction buckets generalizing b with
  | nil => exact coherently_ret _
  | cons bucket rest ih =>
    rw [moveBuckets]
    split
    · exact coherently_ret _
    · split
      · exact coherently_ret _
      · exact ih b
      · rename_i source _
        split
        · exact ih b
        · rename_i hover
          split
          · exact coherently_ret _
          · rename_i destination hreceiver
            refine coherently_await ?_ (fun marked _ => ?_)
            · rintro rfl
              exact hover (.inr (Nat.le_of_lt (receiver_spec hreceiver).2))
            · split <;> exact ih _

theorem coherently_promoteDrained (buckets : List BucketModel) (ids : List Nat) :
    Coherently (promoteDrained self buckets ids) := by
  induction ids with
  | nil => exact coherently_ret ()
  | cons id rest ih =>
    rw [promoteDrained]
    split
    · exact ih
    · exact coherently_await trivial (fun _ _ => ih)

theorem coherently_promoteLocal (buckets : List BucketModel) : Coherently (promoteLocal self buckets) := by
  refine coherently_await trivial (fun ready _ => ?_)
  split
  · exact coherently_await trivial (fun ids _ => coherently_promoteDrained buckets ids)
  · exact coherently_ret ()

theorem coherently_allocate : Coherently allocate := by
  refine coherently_await trivial (fun now _ => coherently_await trivial (fun _ _ => ?_))
  refine coherently_await trivial (fun workers _ => coherently_await trivial (fun buckets _ => ?_))
  refine coherently_bind (coherently_reclaim buckets) (fun _ => ?_)
  split
  · exact coherently_ret none
  · exact coherently_await trivial (fun buckets _ =>
      coherently_bind (coherently_assignFree _ _) (fun _ => coherently_ret _))

theorem coherently_moveAll (plan : Plan) (buckets : List BucketModel) : Coherently (moveAll moves plan buckets) := by
  refine coherently_bind (coherently_moveBuckets buckets _) (fun result => ?_)
  split
  · exact coherently_ret none
  · split
    · exact coherently_ret _
    · exact coherently_moveBuckets buckets _

theorem coherently_reconcile : Coherently (reconcile moves self) := by
  refine coherently_bind coherently_allocate (fun plan => ?_)
  split
  · exact coherently_ret _
  · refine coherently_await trivial (fun buckets _ => coherently_bind (coherently_moveAll _ _) (fun result => ?_))
    split
    · exact coherently_ret none
    · exact coherently_bind (coherently_promoteLocal buckets) (fun _ => coherently_ret _)

theorem coherently_sync : Coherently (syncBackqueueAssignments self) :=
  coherently_await trivial (fun _ _ => coherently_await trivial (fun _ _ => coherently_ret ()))

theorem coherently_acquire : Coherently (acquire moves self) := by
  refine coherently_await trivial (fun _ _ => coherently_bind coherently_sync (fun _ => ?_))
  refine coherently_bind coherently_reconcile (fun result => coherently_await trivial (fun owned _ => ?_))
  split
  · exact coherently_sync
  · exact coherently_ret ()

theorem coherently_publish : Coherently (publishLocalBucketStates self) :=
  coherently_await trivial (fun _ hstates => coherently_await hstates (fun _ _ => coherently_ret ()))

theorem coherently_coordinate : Coherently (coordinate moves self) := by
  refine coherently_await trivial (fun ready _ => ?_)
  split
  · exact coherently_bind coherently_publish (fun _ => coherently_acquire)
  · exact coherently_acquire

theorem coherently_releaseBuckets (buckets : List BucketModel) : Coherently (releaseBuckets buckets) := by
  induction buckets with
  | nil => exact coherently_ret ()
  | cons bucket rest ih => exact coherently_await (.inl ⟨rfl, rfl⟩) (fun _ _ => ih)

theorem coherently_release : Coherently (release self) := by
  refine coherently_await trivial (fun _ _ => coherently_await trivial (fun buckets _ => ?_))
  refine coherently_bind (coherently_releaseBuckets buckets) (fun _ => ?_)
  exact coherently_await trivial (fun _ _ => coherently_await trivial (fun _ _ => coherently_ret ()))

end Issued

/-! ## What a write does to a record -/

/-- Nothing but the activity of the bucket differs. -/
structure BucketModel.SameAssignment (r r' : BucketModel) : Prop where
  id : r'.id = r.id
  owner : r'.ownerId = r.ownerId
  successor : r'.successorId = r.successorId
  revision : r'.revision = r.revision
  state : r'.state = r.state ∨ (r.state.held ∧ r'.state.held)

/-- Owner, successor, or being UNASSIGNED or DRAINING differ. -/
def BucketModel.Reassigned (r r' : BucketModel) : Prop :=
  r'.ownerId ≠ r.ownerId ∨ r'.successorId ≠ r.successorId ∨
    ¬ (r'.state = .draining ↔ r.state = .draining) ∨ ¬ (r'.state = .unassigned ↔ r.state = .unassigned)

namespace BucketModel.SameAssignment

variable {r r' r'' : BucketModel}

theorem refl (r : BucketModel) : r.SameAssignment r := ⟨rfl, rfl, rfl, rfl, .inl rfl⟩

theorem trans (h : r.SameAssignment r') (h' : r'.SameAssignment r'') : r.SameAssignment r'' where
  id := h'.id.trans h.id
  owner := h'.owner.trans h.owner
  successor := h'.successor.trans h.successor
  revision := h'.revision.trans h.revision
  state := by
    rcases h.state with he | ⟨hr, hr'⟩
    · rw [← he]; exact h'.state
    · exact .inr ⟨hr, h'.state.elim (fun he => he ▸ hr') And.right⟩

theorem state_iff (h : r.SameAssignment r') {state : BucketState} (hs : ¬ state.held) :
    r'.state = state ↔ r.state = state := by
  rcases h.state with he | ⟨hr, hr'⟩
  · rw [he]
  · exact ⟨fun e => absurd (e ▸ hr') hs, fun e => absurd (e ▸ hr) hs⟩

theorem not_reassigned (h : r.SameAssignment r') : ¬ r.Reassigned r' := by
  rintro (ho | hs | hd | hu)
  · exact ho h.owner
  · exact hs h.successor
  · exact hd (h.state_iff not_held_draining)
  · exact hu (h.state_iff not_held_unassigned)

theorem wellFormed (h : r.SameAssignment r') (hw : r.WellFormed) : r'.WellFormed where
  unassigned := by rw [h.state_iff not_held_unassigned, h.owner]; exact hw.unassigned
  draining := by rw [h.state_iff not_held_draining, h.successor]; exact hw.draining
  distinct := by rw [h.successor, h.owner]; exact hw.distinct

end BucketModel.SameAssignment

/-- The effect of one call on one record: the assignment stays, or the revision
counts the write. -/
def BucketModel.Written (r r' : BucketModel) : Prop :=
  r.SameAssignment r' ∨ (r'.id = r.id ∧ r'.revision = r.revision + 1)

namespace Buckets

variable {c c' : Buckets} {R : BucketModel → BucketModel → Prop}

/-- The same ids, and the two records of each are related. -/
def Rel (R : BucketModel → BucketModel → Prop) (c c' : Buckets) : Prop :=
  ∀ id, Option.Rel R (c.get? id) (c'.get? id)

theorem rel_refl (hR : ∀ r, R r r) (c : Buckets) : c.Rel R c := by
  intro id
  cases c.get? id with
  | none => exact .none
  | some r => exact .some (hR r)

theorem Rel.trans {c'' : Buckets} (hR : ∀ {r r' r''}, R r r' → R r' r'' → R r r'') (h : c.Rel R c')
    (h' : c'.Rel R c'') : c.Rel R c'' := by
  intro id
  have hid := h id
  have hid' := h' id
  generalize c.get? id = x at hid
  generalize c'.get? id = y at hid hid'
  generalize c''.get? id = z at hid'
  cases hid with
  | none => cases hid'; exact .none
  | some hr => cases hid' with | some hr' => exact .some (hR hr hr')

theorem Rel.mono {R' : BucketModel → BucketModel → Prop} (h : c.Rel R c') (hR : ∀ r r', R r r' → R' r r') :
    c.Rel R' c' := by
  intro id
  have hid := h id
  generalize c.get? id = x at hid ⊢
  generalize c'.get? id = y at hid ⊢
  cases hid with
  | none => exact .none
  | some hr => exact .some (hR _ _ hr)

theorem Rel.forth (h : c.Rel R c') {id : Nat} {r : BucketModel} (hr : c.get? id = some r) :
    ∃ r', c'.get? id = some r' ∧ R r r' := by
  have hid := h id
  rw [hr] at hid
  generalize c'.get? id = x at hid ⊢
  cases hid with | some hrr => exact ⟨_, rfl, hrr⟩

theorem Rel.back (h : c.Rel R c') {id : Nat} {r' : BucketModel} (hr' : c'.get? id = some r') :
    ∃ r, c.get? id = some r ∧ R r r' := by
  have hid := h id
  rw [hr'] at hid
  generalize c.get? id = x at hid ⊢
  cases hid with | some hrr => exact ⟨_, rfl, hrr⟩

theorem rel_updateOne {id : Nat} {filter : BucketModel → Bool} {update : BucketModel → BucketModel}
    (hR : ∀ r, R r r) (h : ∀ r, r.id = id → filter r = true → R r { update r with id := id }) (c : Buckets) :
    c.Rel R (c.updateOne id filter update) := by
  intro id'
  rw [get?_updateOne]
  cases c.get? id' with
  | none => exact .none
  | some r =>
    refine .some ?_
    unfold rewriteOne
    split
    · rename_i hr; exact h r hr.1 hr.2
    · exact hR r

theorem rel_syncBucketState (worker : WorkerId) (c : Buckets) {report : Nat × BucketState}
    (h : report.2.held) : c.Rel BucketModel.SameAssignment (syncBucketState worker c report) := by
  refine rel_updateOne .refl (fun r hid hf => ⟨hid.symm, rfl, rfl, rfl, .inr ⟨?_, h⟩⟩) c
  have hf' : r.ownerId = some worker ∧ r.state.held := by simpa [canDrain] using hf
  exact hf'.2

/-- Activity reports leave every assignment alone. -/
theorem rel_syncOwnedBucketStates (worker : WorkerId) (c : Buckets) {states : List (Nat × BucketState)}
    (h : ∀ e ∈ states, e.2.held) :
    c.Rel BucketModel.SameAssignment (c.syncOwnedBucketStates worker states) := by
  induction states generalizing c with
  | nil => exact rel_refl .refl c
  | cons e states ih =>
    refine (rel_syncBucketState worker c (h e List.mem_cons_self)).trans .trans ?_
    exact ih _ (fun e he => h e (List.mem_cons_of_mem _ he))

/-- Inserting where a record exists changes nothing; elsewhere the new record
is unassigned. -/
theorem mem_insertRecord_iff {id : Nat} {records : List BucketModel}
    (hs : records.Pairwise (fun a b => a.id < b.id)) {r : BucketModel} :
    r ∈ insertRecord id records ↔ r ∈ records ∨ (r = { id } ∧ ∀ x ∈ records, x.id ≠ id) := by
  induction records with
  | nil => simp [insertRecord]
  | cons x xs ih =>
    obtain ⟨hx, hxs⟩ := List.pairwise_cons.mp hs
    rw [insertRecord]
    split
    · rename_i hlt
      have hnew : ∀ y ∈ x :: xs, y.id ≠ id := by
        intro y hy
        rcases List.mem_cons.mp hy with rfl | hy
        · omega
        · have := hx y hy; omega
      rw [List.mem_cons, or_comm]
      exact or_congr_right ⟨fun h => ⟨h, hnew⟩, And.left⟩
    · split
      · rename_i hid
        exact ⟨.inl, fun h => h.resolve_right (fun h => h.2 x List.mem_cons_self hid)⟩
      · rename_i hid
        rw [List.mem_cons, ih hxs, List.mem_cons, or_assoc]
        refine or_congr_right (or_congr_right (and_congr_right (fun _ => ?_)))
        simp [hid]

theorem get?_ensureOne (c : Buckets) (id id' : Nat) : (c.ensureOne id).get? id' = c.get? id' ∨
    (c.get? id' = none ∧ (c.ensureOne id).get? id' = some { id := id' }) := by
  cases hnew : (c.ensureOne id).get? id' with
  | none =>
    left
    cases hold : c.get? id' with
    | none => rfl
    | some r =>
      have hr : r ∈ (c.ensureOne id).records := subset_insertRecord (get?_mem hold)
      rw [← get?_id hold, get?_of_mem hr] at hnew
      cases hnew
  | some r =>
    obtain ⟨hr, hid⟩ := get?_eq_some_iff.mp hnew
    rcases (mem_insertRecord_iff c.sorted).mp hr with hr | ⟨rfl, hfree⟩
    · exact .inl (get?_eq_some_iff.mpr ⟨hr, hid⟩).symm
    · subst hid
      refine .inr ⟨?_, rfl⟩
      cases hold : c.get? id with
      | none => rfl
      | some x => exact absurd (get?_id hold) (hfree x (get?_mem hold))

end Buckets

/-- Every call acts on each record as a coherent write. -/
theorem execute_written {db db' : Database} {call : Call} {reply : call.Reply} (hc : call.Coherent)
    (h : db.execute call = some (reply, db')) :
    db.buckets.Rel (fun r r' => r.Written r' ∧ (r.WellFormed → r'.WellFormed)) db'.buckets := by
  have hrefl : ∀ r : BucketModel, r.Written r ∧ (r.WellFormed → r.WellFormed) :=
    fun r => ⟨.inl (.refl r), id⟩
  cases call with
  | setBucketAssignment bucket owner state =>
    cases h
    refine Buckets.rel_updateOne hrefl (fun r hid _ => ⟨.inr ⟨hid.symm, rfl⟩, fun _ => ?_⟩) _
    rcases hc with ⟨rfl, rfl⟩ | ⟨hne, rfl⟩
    · exact ⟨by simp, by simp, by simp⟩
    · exact ⟨by simp [hne], by simp, by simp⟩
  | markBucketDraining bucket owner successor =>
    cases h
    refine Buckets.rel_updateOne hrefl (fun r hid hf => ⟨.inr ⟨hid.symm, rfl⟩, fun hw => ?_⟩) _
    have hf' : r.ownerId = some owner ∧ r.state.held := by simpa [Buckets.canDrain] using hf
    refine ⟨by simp [hf'.1], by simp, fun _ => ?_⟩
    simpa [hf'.1] using Ne.symm hc
  | promoteDrainedBucket bucket owner successor =>
    cases h
    refine Buckets.rel_updateOne hrefl (fun r hid hf => ⟨.inr ⟨hid.symm, rfl⟩, fun _ => ?_⟩) _
    exact ⟨by simp, by simp, by simp⟩
  | syncOwnedBucketStates worker states =>
    cases h
    exact (Buckets.rel_syncOwnedBucketStates worker db.buckets hc).mono (fun _ _ h => ⟨.inl h, h.wellFormed⟩)
  | deleteExpiredWorkers | getLiveWorkers | getBuckets | getOwnedBuckets | deleteWorker =>
    cases h
    exact Buckets.rel_refl hrefl _
  | now | acquireLock | releaseLock | backQueueReady | bucketStates | drainedBuckets | setBuckets => cases h

end Linksurf
