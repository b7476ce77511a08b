import Linksurf.Models
import Mathlib.Data.List.Nodup
import Mathlib.Data.String.Basic

/-!
# The buckets and workers collections

The bucket and worker operations of `MongoDatabase`. A collection is kept in
`_id` order, which is the order every `find().sort("_id", 1)` returns, and the
ids are unique, so `update_one` by `_id` touches at most one record.
-/
namespace Linksurf

/-- Stored bucket records in increasing `_id` order. -/
structure Buckets where
  records : List BucketModel
  sorted : records.Pairwise (fun a b => a.id < b.id)

namespace Buckets

def empty : Buckets := ⟨[], .nil⟩

theorem nodup (c : Buckets) : (c.records.map (·.id)).Nodup := by
  rw [List.Nodup, List.pairwise_map]
  exact c.sorted.imp (fun h => Nat.ne_of_lt h)

/-- `find_one({"_id": id})`. -/
def get? (c : Buckets) (id : Nat) : Option BucketModel := c.records.find? (fun r => r.id = id)

theorem get?_mem {c : Buckets} {id : Nat} {r : BucketModel} (h : c.get? id = some r) :
    r ∈ c.records := List.mem_of_find?_eq_some h

theorem get?_id {c : Buckets} {id : Nat} {r : BucketModel} (h : c.get? id = some r) :
    r.id = id := by simpa using List.find?_some h

theorem get?_of_mem {c : Buckets} {r : BucketModel} (h : r ∈ c.records) : c.get? r.id = some r := by
  obtain ⟨records, sorted⟩ := c
  induction records with
  | nil => cases h
  | cons x xs ih =>
    obtain ⟨hx, hxs⟩ := List.pairwise_cons.mp sorted
    rcases List.mem_cons.mp h with rfl | h
    · simp [get?]
    · have hne : x.id ≠ r.id := Nat.ne_of_lt (hx r h)
      simpa [get?, hne] using ih hxs h

theorem get?_eq_some_iff {c : Buckets} {id : Nat} {r : BucketModel} :
    c.get? id = some r ↔ r ∈ c.records ∧ r.id = id := by
  constructor
  · intro h; exact ⟨get?_mem h, get?_id h⟩
  · rintro ⟨h, rfl⟩; exact get?_of_mem h

/-- What `update_one({"_id": id, ...}, ...)` does to one record. -/
def rewriteOne (id : Nat) (filter : BucketModel → Bool) (update : BucketModel → BucketModel)
    (r : BucketModel) : BucketModel :=
  if r.id = id ∧ filter r then { update r with id } else r

@[simp] theorem rewriteOne_id (id : Nat) (filter : BucketModel → Bool)
    (update : BucketModel → BucketModel) (r : BucketModel) :
    (rewriteOne id filter update r).id = r.id := by
  unfold rewriteOne
  split
  · rename_i h; exact h.1.symm
  · rfl

/-- `update_one({"_id": id, ...}, ...)` over the collection. -/
def updateOne (c : Buckets) (id : Nat) (filter : BucketModel → Bool)
    (update : BucketModel → BucketModel) : Buckets where
  records := c.records.map (rewriteOne id filter update)
  sorted := by
    rw [List.pairwise_map]
    exact c.sorted.imp (fun h => by simpa using h)

/-- `matched_count == 1` for the same filter. -/
def matches? (c : Buckets) (id : Nat) (filter : BucketModel → Bool) : Bool := (c.get? id).any filter

theorem get?_updateOne (c : Buckets) (id id' : Nat) (filter : BucketModel → Bool)
    (update : BucketModel → BucketModel) :
    (c.updateOne id filter update).get? id' = (c.get? id').map (rewriteOne id filter update) := by
  have hid : ((fun r : BucketModel => decide (r.id = id')) ∘ rewriteOne id filter update) =
      fun r => decide (r.id = id') := by
    funext r; simp
  simp only [get?, updateOne, List.find?_map, hid]

@[simp] theorem get?_updateOne_other (c : Buckets) {id id' : Nat} (h : id' ≠ id)
    (filter : BucketModel → Bool) (update : BucketModel → BucketModel) :
    (c.updateOne id filter update).get? id' = c.get? id' := by
  rw [get?_updateOne]
  cases hr : c.get? id' with
  | none => rfl
  | some r =>
    have hid := get?_id hr
    have hne : r.id ≠ id := by omega
    simp [rewriteOne, hne]

theorem get?_updateOne_same (c : Buckets) (id : Nat) (filter : BucketModel → Bool)
    (update : BucketModel → BucketModel) :
    (c.updateOne id filter update).get? id =
      (c.get? id).map (fun r => if filter r then { update r with id } else r) := by
  rw [get?_updateOne]
  cases hr : c.get? id with
  | none => rfl
  | some r => simp [rewriteOne, get?_id hr]

/-- Rewriting one stored record leaves the records around it alone. -/
theorem updateOne_split {c : Buckets} {r : BucketModel} (h : r ∈ c.records)
    (filter : BucketModel → Bool) (update : BucketModel → BucketModel) :
    ∃ before after, c.records = before ++ r :: after ∧
      (∀ x ∈ before ++ after, x.id ≠ r.id) ∧
      (c.updateOne r.id filter update).records =
        before ++ rewriteOne r.id filter update r :: after := by
  obtain ⟨before, after, he⟩ := List.append_of_mem h
  have hn := c.nodup
  rw [he, List.map_append, List.map_cons, List.nodup_middle, List.nodup_cons, ← List.map_append] at hn
  have hother : ∀ x ∈ before ++ after, x.id ≠ r.id :=
    fun x hx hid => hn.1 (hid ▸ List.mem_map_of_mem hx)
  have hsame : ∀ xs : List BucketModel, (∀ x ∈ xs, x.id ≠ r.id) →
      xs.map (rewriteOne r.id filter update) = xs := by
    intro xs hxs
    conv_rhs => rw [← List.map_id xs]
    exact List.map_congr_left (fun x hx => by simp [rewriteOne, hxs x hx])
  refine ⟨before, after, he, hother, ?_⟩
  change c.records.map (rewriteOne r.id filter update) = _
  rw [he, List.map_append, List.map_cons,
    hsame before (fun x hx => hother x (List.mem_append_left _ hx)),
    hsame after (fun x hx => hother x (List.mem_append_right _ hx))]

/-- The records after a matching update: the rewritten one and the others. -/
theorem mem_updateOne {c : Buckets} {r : BucketModel} (h : r ∈ c.records)
    {filter : BucketModel → Bool} (hf : filter r = true) (update : BucketModel → BucketModel)
    (x : BucketModel) : x ∈ (c.updateOne r.id filter update).records ↔
      x = { update r with id := r.id } ∨ (x ∈ c.records ∧ x.id ≠ r.id) := by
  obtain ⟨before, after, he, hother, hu⟩ := updateOne_split h filter update
  have hr : rewriteOne r.id filter update r = { update r with id := r.id } := by
    simp [rewriteOne, hf]
  rw [hu, he, hr]
  constructor
  · intro hx
    rcases List.mem_append.mp hx with hx | hx
    · exact .inr ⟨by simp [hx], hother x (by simp [hx])⟩
    · rcases List.mem_cons.mp hx with rfl | hx
      · exact .inl rfl
      · exact .inr ⟨by simp [hx], hother x (by simp [hx])⟩
  · rintro (rfl | ⟨hx, hid⟩)
    · simp
    · rcases List.mem_append.mp hx with hx | hx
      · simp [hx]
      · rcases List.mem_cons.mp hx with rfl | hx
        · exact absurd rfl hid
        · simp [hx]

/-- A matching update moves one record from one count to another. -/
theorem countP_updateOne {c : Buckets} {r : BucketModel} (h : r ∈ c.records)
    {filter : BucketModel → Bool} (hf : filter r = true) (update : BucketModel → BucketModel)
    (p : BucketModel → Bool) :
    (c.updateOne r.id filter update).records.countP p + (if p r then 1 else 0) =
      c.records.countP p + if p { update r with id := r.id } then 1 else 0 := by
  obtain ⟨before, after, he, -, hu⟩ := updateOne_split h filter update
  have hr : rewriteOne r.id filter update r = { update r with id := r.id } := by
    simp [rewriteOne, hf]
  rw [hu, he, hr]
  simp only [List.countP_append, List.countP_cons]
  omega

/-- An update whose filter matches nothing changes nothing. -/
theorem updateOne_of_not_matches {c : Buckets} {id : Nat} {filter : BucketModel → Bool}
    (h : c.matches? id filter = false) (update : BucketModel → BucketModel) :
    c.updateOne id filter update = c := by
  have hrec : c.records.map (rewriteOne id filter update) = c.records := by
    conv_rhs => rw [← List.map_id c.records]
    refine List.map_congr_left (fun r hr => ?_)
    by_cases hid : r.id = id
    · have hf : filter r = false := by simpa [matches?, ← hid, get?_of_mem hr] using h
      simp [rewriteOne, hf]
    · simp [rewriteOne, hid]
  cases c
  simp only [updateOne, Buckets.mk.injEq]
  exact hrec

theorem exists_of_matches {c : Buckets} {id : Nat} {filter : BucketModel → Bool}
    (h : c.matches? id filter = true) : ∃ r ∈ c.records, r.id = id ∧ filter r = true := by
  obtain ⟨r, hr, hf⟩ := (Option.any_eq_true _ _).mp h
  exact ⟨r, get?_mem hr, get?_id hr, hf⟩

@[simp] theorem updateOne_ids (c : Buckets) (id : Nat) (filter : BucketModel → Bool)
    (update : BucketModel → BucketModel) :
    (c.updateOne id filter update).records.map (·.id) = c.records.map (·.id) := by
  simp [updateOne]

@[simp] theorem updateOne_length (c : Buckets) (id : Nat) (filter : BucketModel → Bool)
    (update : BucketModel → BucketModel) :
    (c.updateOne id filter update).records.length = c.records.length := by
  simp [updateOne]

theorem eq_of_id_eq {c : Buckets} {r r' : BucketModel} (h : r ∈ c.records) (h' : r' ∈ c.records)
    (hid : r.id = r'.id) : r = r' := by
  have h₁ := get?_of_mem h
  rw [hid, get?_of_mem h'] at h₁
  exact (Option.some.inj h₁).symm

/-- Insert `{"_id": id}` as an unassigned record unless it exists already. -/
def insertRecord (id : Nat) : List BucketModel → List BucketModel
  | [] => [{ id }]
  | r :: rs => if id < r.id then { id } :: r :: rs
    else if r.id = id then r :: rs else r :: insertRecord id rs

theorem mem_insertRecord {id : Nat} {records : List BucketModel} {r : BucketModel}
    (h : r ∈ insertRecord id records) : r = { id } ∨ r ∈ records := by
  induction records with
  | nil => left; simpa [insertRecord] using h
  | cons x xs ih =>
    simp only [insertRecord] at h
    split at h
    · simpa using h
    · split at h
      · exact .inr h
      · rcases List.mem_cons.mp h with rfl | h
        · exact .inr List.mem_cons_self
        · exact (ih h).imp_right (List.mem_cons_of_mem _)

theorem subset_insertRecord {id : Nat} {records : List BucketModel} {r : BucketModel}
    (h : r ∈ records) : r ∈ insertRecord id records := by
  induction records with
  | nil => cases h
  | cons x xs ih =>
    simp only [insertRecord]
    split
    · exact List.mem_cons_of_mem _ h
    · split
      · exact h
      · rcases List.mem_cons.mp h with rfl | h
        · exact List.mem_cons_self
        · exact List.mem_cons_of_mem _ (ih h)

theorem insertRecord_sorted (id : Nat) {records : List BucketModel}
    (h : records.Pairwise (fun a b => a.id < b.id)) :
    (insertRecord id records).Pairwise (fun a b => a.id < b.id) := by
  induction records with
  | nil => simp [insertRecord]
  | cons x xs ih =>
    obtain ⟨hx, hxs⟩ := List.pairwise_cons.mp h
    simp only [insertRecord]
    split
    · rename_i hlt
      refine List.pairwise_cons.mpr ⟨?_, h⟩
      intro r hr
      rcases List.mem_cons.mp hr with rfl | hr
      · exact hlt
      · exact Nat.lt_trans hlt (hx r hr)
    · split
      · exact h
      · refine List.pairwise_cons.mpr ⟨?_, ih hxs⟩
        intro r hr
        rcases mem_insertRecord hr with rfl | hr
        · change x.id < id; omega
        · exact hx r hr

/-- One `$setOnInsert` upsert of `ensure_bucket_records`. -/
def ensureOne (c : Buckets) (id : Nat) : Buckets := ⟨insertRecord id c.records, insertRecord_sorted id c.sorted⟩

/-- `ensure_bucket_records(count)`: ids `1` to `count`. -/
def ensureBucketRecords (c : Buckets) (count : Nat) : Buckets :=
  (List.range' 1 count).foldl ensureOne c

/-- `set_bucket_assignment`: unconditional on the record's current contents. -/
def setBucketAssignment (c : Buckets) (id : Nat) (owner : Option WorkerId) (state : BucketState)
    (successor : Option WorkerId := none) : Buckets :=
  c.updateOne id (fun _ => true) (fun r =>
    { r with ownerId := owner, successorId := successor, state, revision := r.revision + 1 })

/-- The filter of `mark_bucket_draining`. -/
def canDrain (owner : WorkerId) (r : BucketModel) : Bool := r.ownerId = some owner ∧ r.state.held

def markBucketDraining (c : Buckets) (id : Nat) (owner successor : WorkerId) : Buckets :=
  c.updateOne id (canDrain owner) (fun r =>
    { r with state := .draining, successorId := some successor, revision := r.revision + 1 })

/-- The filter of `promote_drained_bucket`. -/
def canPromote (owner successor : WorkerId) (r : BucketModel) : Bool :=
  r.ownerId = some owner ∧ r.successorId = some successor ∧ r.state = .draining

theorem canPromote_iff {owner successor : WorkerId} {r : BucketModel} : canPromote owner successor r = true ↔
    r.ownerId = some owner ∧ r.successorId = some successor ∧ r.state = .draining := by
  simp [canPromote]

def promoteDrainedBucket (c : Buckets) (id : Nat) (owner successor : WorkerId) : Buckets :=
  c.updateOne id (canPromote owner successor) (fun r =>
    { r with ownerId := some successor, successorId := none, state := .idle, revision := r.revision + 1 })

/-- One update of `sync_owned_bucket_states`, whose filter is that of
`mark_bucket_draining`. -/
def syncBucketState (worker : WorkerId) (c : Buckets) (report : Nat × BucketState) : Buckets :=
  c.updateOne report.1 (canDrain worker) (fun r => { r with state := report.2 })

/-- `sync_owned_bucket_states`: an unordered bulk write of activity reports. -/
def syncOwnedBucketStates (c : Buckets) (worker : WorkerId) (states : List (Nat × BucketState)) : Buckets :=
  states.foldl (syncBucketState worker) c

/-- `get_owned_buckets`. -/
def getOwnedBuckets (c : Buckets) (worker : WorkerId) : List BucketModel :=
  c.records.filter (fun r => r.ownerId = some worker)

end Buckets

/-- Stored worker records in increasing `_id` order. -/
structure Workers where
  records : List WorkerModel
  sorted : records.Pairwise (fun a b => a.id < b.id)

namespace Workers

def empty : Workers := ⟨[], .nil⟩

theorem nodup (c : Workers) : (c.records.map (·.id)).Nodup := by
  rw [List.Nodup, List.pairwise_map]
  exact c.sorted.imp ne_of_lt

theorem eq_of_id_eq {c : Workers} {w w' : WorkerModel} (h : w ∈ c.records) (h' : w' ∈ c.records)
    (hid : w.id = w'.id) : w = w' := List.inj_on_of_nodup_map c.nodup h h' hid

def keep (c : Workers) (p : WorkerModel → Bool) : Workers := ⟨c.records.filter p, c.sorted.filter p⟩

/-- `get_live_workers(now)`. -/
def getLiveWorkers (c : Workers) (now : Time) : List WorkerModel :=
  c.records.filter (fun w => now < w.expiresAt)

/-- `delete_expired_workers(now)`. -/
def deleteExpiredWorkers (c : Workers) (now : Time) : Workers := c.keep (fun w => ¬ w.expiresAt ≤ now)

def deleteWorker (c : Workers) (id : WorkerId) : Workers := c.keep (fun w => w.id ≠ id)

/-- `upsert_worker`: replace the record with this id or insert it in `_id` order. -/
def upsertWorker (c : Workers) (worker : WorkerModel) : Workers where
  records := c.records.filter (fun w => w.id < worker.id) ++
    worker :: c.records.filter (fun w => worker.id < w.id)
  sorted := by
    refine List.pairwise_append.mpr ⟨c.sorted.filter _, List.pairwise_cons.mpr ⟨?_, c.sorted.filter _⟩, ?_⟩
    · intro w hw
      simpa using (List.mem_filter.mp hw).2
    · intro a ha b hb
      have hlt : a.id < worker.id := by simpa using (List.mem_filter.mp ha).2
      rcases List.mem_cons.mp hb with rfl | hb
      · exact hlt
      · exact lt_trans hlt (by simpa using (List.mem_filter.mp hb).2)

theorem mem_upsertWorker {c : Workers} {worker w : WorkerModel} :
    w ∈ (c.upsertWorker worker).records ↔ w = worker ∨ (w ∈ c.records ∧ w.id ≠ worker.id) := by
  simp only [upsertWorker, List.mem_append, List.mem_cons, List.mem_filter, decide_eq_true_eq]
  have hne : w.id ≠ worker.id ↔ w.id < worker.id ∨ worker.id < w.id := lt_or_lt_iff_ne.symm
  tauto

theorem live_deleteExpiredWorkers (c : Workers) (now : Time) :
    (c.deleteExpiredWorkers now).getLiveWorkers now = c.getLiveWorkers now := by
  simp only [getLiveWorkers, deleteExpiredWorkers, keep, List.filter_filter]
  refine List.filter_congr (fun w _ => ?_)
  by_cases h : now < w.expiresAt
  · simp [h, not_le.mpr h]
  · simp [h]

end Workers

/-- What the coordination protocol keeps in MongoDB. -/
structure Database where
  buckets : Buckets
  workers : Workers

end Linksurf
