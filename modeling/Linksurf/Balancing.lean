import Linksurf.Loads
import Linksurf.Pass

/-!
# An undisturbed pass balances the buckets

The local loads of a pass are kept equal to what the stored records say, so the
greedy loops are read as unit gifts and unit moves. Every record a ready worker
effectively owns is settled; a handoff only ever leaves an overloaded worker for
an underloaded one, and no worker stays overloaded once its IDLE and ACTIVE
buckets have been visited.
-/
namespace Linksurf

open Coroutine

/-- The number of buckets a worker effectively owns. -/
def load (ready : List WorkerId) (c : Buckets) (worker : WorkerId) : Nat :=
  c.records.countP (fun r => effectiveOwner ready r = some worker)

/-- The number of handoffs stored towards a worker. -/
def reserved (c : Buckets) (worker : WorkerId) : Nat :=
  c.records.countP (fun r => r.state = .draining ∧ r.successorId = some worker)

def Call.marks : Call → Bool
  | .markBucketDraining _ _ _ => true
  | _ => false

def Call.assigns : Call → Bool
  | .setBucketAssignment _ _ _ => true
  | _ => false

/-- The number of `mark_bucket_draining` writes issued. -/
def Session.marks (s : Session) : Nat := s.log.countP (fun e => e.1.marks)

/-! ## The receiver -/

section Receiver

variable {ready : List WorkerId} {targets loads : WorkerId → Nat} {d : WorkerId}

theorem receiver_spec (h : receiver ready targets loads = some d) : d ∈ ready ∧ loads d < targets d := by
  have hmem := List.argmin_mem (Option.mem_def.mpr h)
  simpa using hmem

theorem receiver_ne_none (h : ∃ d ∈ ready, loads d < targets d) :
    receiver ready targets loads ≠ none := by
  obtain ⟨d, hd, hlt⟩ := h
  intro hnone
  have hnil := List.argmin_eq_none.mp hnone
  have hmem : d ∈ ready.filter (fun worker => loads worker < targets worker) := by simp [hd, hlt]
  rw [hnil] at hmem
  cases hmem

end Receiver

/-! ## Settled records -/

/-- Owned by a ready worker, and handed off, if at all, to a ready worker. -/
structure Settled (ready : List WorkerId) (r : BucketModel) : Prop where
  assigned : r.state ≠ .unassigned
  owner : ∃ o ∈ ready, r.ownerId = some o
  successor : r.state = .draining → ∃ s ∈ ready, r.successorId = some s

theorem Settled.effectiveOwner_held (ready : List WorkerId) {r : BucketModel}
    (hs : r.state ≠ .draining) : effectiveOwner ready r = r.ownerId := by
  simp [effectiveOwner, hs]

theorem Settled.effectiveOwner_draining {ready : List WorkerId} {r : BucketModel}
    (h : Settled ready r) (hs : r.state = .draining) : effectiveOwner ready r = r.successorId := by
  obtain ⟨s, hs', he⟩ := h.successor hs
  simp [effectiveOwner, hs, he, hs']

theorem Settled.effectiveOwner_mem {ready : List WorkerId} {r : BucketModel} (h : Settled ready r) :
    ∃ w ∈ ready, effectiveOwner ready r = some w := by
  by_cases hs : r.state = .draining
  · rw [h.effectiveOwner_draining hs]; exact h.successor hs
  · rw [Settled.effectiveOwner_held ready hs]; exact h.owner

/-- No owner exactly when unassigned and a successor exactly when draining. -/
structure Coherent (r : BucketModel) : Prop where
  unassigned : r.state = .unassigned ↔ r.ownerId = none
  draining : r.state = .draining ↔ r.successorId ≠ none

structure FreeRecord (r : BucketModel) : Prop where
  state : r.state = .unassigned
  owner : r.ownerId = none

/-- The loads of all ready workers together count the records one of them
effectively owns. -/
theorem total_load (ready : List WorkerId) (c : Buckets) :
    Loads.total ready.toFinset (load ready c) =
      c.records.countP (fun r => (effectiveOwner ready r).any (· ∈ ready.toFinset)) :=
  Loads.total_count (effectiveOwner ready) c.records

theorem total_load_settled {ready : List WorkerId} {c : Buckets}
    (h : ∀ r ∈ c.records, Settled ready r) :
    Loads.total ready.toFinset (load ready c) = c.records.length := by
  rw [total_load, List.countP_eq_length]
  intro r hr
  obtain ⟨w, hw, he⟩ := (h r hr).effectiveOwner_mem
  simp [he, hw]

theorem total_load_free {ready : List WorkerId} {c : Buckets} {r : BucketModel}
    (hr : r ∈ c.records) (hfree : FreeRecord r) :
    Loads.total ready.toFinset (load ready c) < c.records.length := by
  rw [total_load]
  refine lt_of_le_of_ne List.countP_le_length (fun h => ?_)
  have hall := List.countP_eq_length.mp h r hr
  simp [effectiveOwner, hfree.state, hfree.owner] at hall

/-! ## Local variables and stored records -/

/-- The pass's `effective_owner` and `loads` are what the records say. -/
structure Tracks (ready : List WorkerId) (c : Buckets) (b : Balance) : Prop where
  known : ∀ id, b.effectiveOwner id = (c.get? id).map (effectiveOwner ready)
  loads : ∀ w ∈ ready, b.loads w = load ready c w

theorem tracks_ofBuckets (ready : List WorkerId) (c : Buckets) :
    Tracks ready c (.ofBuckets ready c.records) where
  known _ := rfl
  loads w hw := by simp [Balance.ofBuckets, hw, load]

theorem load_updateOne (ready : List WorkerId) {c : Buckets} {r : BucketModel} (h : r ∈ c.records)
    {filter : BucketModel → Bool} (hf : filter r = true) (update : BucketModel → BucketModel)
    (w : WorkerId) :
    load ready (c.updateOne r.id filter update) w +
        (if effectiveOwner ready r = some w then 1 else 0) =
      load ready c w +
        if effectiveOwner ready { update r with id := r.id } = some w then 1 else 0 := by
  simpa [load] using Buckets.countP_updateOne h hf update (fun r => effectiveOwner ready r = some w)

theorem known_updateOne {ready : List WorkerId} {c : Buckets} {b : Balance}
    (hknown : ∀ id, b.effectiveOwner id = (c.get? id).map (effectiveOwner ready))
    {r : BucketModel} (h : r ∈ c.records) {filter : BucketModel → Bool} (hf : filter r = true)
    (update : BucketModel → BucketModel) {d : WorkerId}
    (hd : effectiveOwner ready { update r with id := r.id } = some d) (id : Nat) :
    Function.update b.effectiveOwner r.id (some (some d)) id =
      ((c.updateOne r.id filter update).get? id).map (effectiveOwner ready) := by
  by_cases hid : id = r.id
  · subst hid
    rw [Buckets.get?_updateOne_same, Buckets.get?_of_mem h]
    simp [hf, hd]
  · rw [Function.update_of_ne hid, Buckets.get?_updateOne_other _ hid, hknown]

theorem Tracks.give {ready : List WorkerId} {c : Buckets} {b : Balance} (ht : Tracks ready c b)
    {r : BucketModel} (h : r ∈ c.records) (hnone : effectiveOwner ready r = none)
    {filter : BucketModel → Bool} (hf : filter r = true) {update : BucketModel → BucketModel}
    {d : WorkerId} (hd : effectiveOwner ready { update r with id := r.id } = some d) :
    Tracks ready (c.updateOne r.id filter update) (b.give r.id d) where
  known := known_updateOne ht.known h hf update hd
  loads w hw := by
    have hl := load_updateOne ready h hf update w
    rw [hnone, hd] at hl
    have hb := ht.loads w hw
    by_cases hwd : w = d
    · subst hwd
      simp [Balance.give] at hl ⊢
      omega
    · have hne : d ≠ w := fun e => hwd e.symm
      simp [Balance.give, hwd, hne] at hl ⊢
      omega

theorem Tracks.move {ready : List WorkerId} {c : Buckets} {b : Balance} (ht : Tracks ready c b)
    {r : BucketModel} (h : r ∈ c.records) {s d : WorkerId}
    (hs : effectiveOwner ready r = some s) (hsd : s ≠ d)
    {filter : BucketModel → Bool} (hf : filter r = true) {update : BucketModel → BucketModel}
    (hd : effectiveOwner ready { update r with id := r.id } = some d) :
    Tracks ready (c.updateOne r.id filter update) (b.move r.id s d) where
  known := known_updateOne ht.known h hf update hd
  loads w hw := by
    have hl := load_updateOne ready h hf update w
    rw [hs, hd] at hl
    have hb := ht.loads w hw
    change Loads.move b.loads s d w = _
    by_cases hwd : w = d
    · subst hwd
      rw [Loads.move_destination hsd]
      simp [hsd] at hl
      omega
    · by_cases hws : w = s
      · subst hws
        rw [Loads.move_source hsd]
        simp [Ne.symm hwd] at hl
        omega
      · rw [Loads.move_other hws hwd]
        simp [Ne.symm hwd, Ne.symm hws] at hl
        omega

/-! ## The phases of a pass -/

/-- What no phase of a pass changes, besides the number of handoff marks. -/
structure Frame (s s' : Session) (marks : Nat) : Prop where
  workers : s'.db.workers = s.db.workers
  ids : s'.db.buckets.records.map (·.id) = s.db.buckets.records.map (·.id)
  marks : s'.marks = s.marks + marks

theorem Frame.refl (s : Session) : Frame s s 0 := ⟨rfl, rfl, rfl⟩

theorem Frame.trans {s t u : Session} {m n : Nat} (h : Frame s t m) (h' : Frame t u n) :
    Frame s u (m + n) where
  workers := h'.workers.trans h.workers
  ids := h'.ids.trans h.ids
  marks := by rw [h'.marks, h.marks]; omega

theorem Frame.length {s s' : Session} {n : Nat} (h : Frame s s' n) :
    s'.db.buckets.records.length = s.db.buckets.records.length := by
  simpa using congrArg List.length h.ids

section Phases

variable {env : Surroundings} {live ready : List WorkerId}

theorem Session.frame_wrote (s : Session) (call : Call) (id : Nat) (filter : BucketModel → Bool)
    (update : BucketModel → BucketModel) :
    Frame s (s.wrote call (s.db.buckets.updateOne id filter update)) (if call.marks then 1 else 0) where
  workers := rfl
  ids := Buckets.updateOne_ids _ _ _ _
  marks := by simp only [Session.marks, Session.wrote, List.countP_append, List.countP_singleton]

/-- The owner and state written for a bucket whose owner is gone. -/
def heir (ready : List WorkerId) (r : BucketModel) : Option WorkerId × BucketState :=
  if r.state = .draining ∧ r.successorId.any (· ∈ ready) then (r.successorId, .idle)
  else (none, .unassigned)

/-- What reclaiming does to one record. -/
def reclaimedRecord (live ready : List WorkerId) (r : BucketModel) : BucketModel :=
  if r.ownerId.all (· ∈ live) then r
  else { r with ownerId := (heir ready r).1, successorId := none, state := (heir ready r).2, revision := r.revision + 1 }

@[simp] theorem reclaimedRecord_id (r : BucketModel) : (reclaimedRecord live ready r).id = r.id := by
  unfold reclaimedRecord; split <;> rfl

theorem reclaim_cons_live {r : BucketModel} {rest : List BucketModel} (h : r.ownerId.all (· ∈ live)) :
    reclaim live ready (r :: rest) = reclaim live ready rest := by
  rw [reclaim, if_pos h]

theorem reclaim_cons_dead {r : BucketModel} {rest : List BucketModel} (h : ¬ r.ownerId.all (· ∈ live)) :
    reclaim live ready (r :: rest) =
      .await (.setBucketAssignment r.id (heir ready r).1 (heir ready r).2)
        (fun _ => reclaim live ready rest) := by
  by_cases hd : r.state = .draining ∧ r.successorId.any (· ∈ ready)
  · rw [reclaim, if_neg h, heir, if_pos hd, if_pos hd]; rfl
  · rw [reclaim, if_neg h, heir, if_neg hd, if_neg hd]; rfl

/-- Records of live owners are left alone: the loop issues nothing for them. -/
theorem reclaim_eq_ret {buckets : List BucketModel} (h : ∀ r ∈ buckets, r.ownerId.all (· ∈ live)) :
    reclaim live ready buckets = .ret () := by
  induction buckets with
  | nil => rfl
  | cons r rest ih =>
    rw [reclaim_cons_live (h r List.mem_cons_self)]
    exact ih (fun r hr => h r (List.mem_cons_of_mem _ hr))

theorem ids_cons {bucket : BucketModel} {rest : List BucketModel} (h : ((bucket :: rest).map (·.id)).Nodup) :
    (∀ r ∈ rest, r.id ≠ bucket.id) ∧ (rest.map (·.id)).Nodup := by
  obtain ⟨hnot, hnodup⟩ := List.nodup_cons.mp h
  exact ⟨fun r hr hid => hnot (List.mem_map.mpr ⟨r, hr, hid⟩), hnodup⟩

theorem run_reclaim (henv : env.Undisturbed) (live ready : List WorkerId) (rest : List BucketModel) (s : Session)
    (hmem : ∀ r ∈ rest, r ∈ s.db.buckets.records) (hnodup : (rest.map (·.id)).Nodup) :
    Frame s (runPass env (reclaim live ready rest) s).2 0 ∧
    (runPass env (reclaim live ready rest) s).2.db.buckets.records =
      s.db.buckets.records.map (fun r => if r ∈ rest then reclaimedRecord live ready r else r) := by
  induction rest generalizing s with
  | nil => exact ⟨.refl s, by simp [reclaim]⟩
  | cons bucket rest ih =>
    obtain ⟨hne, hnodup⟩ := ids_cons hnodup
    have hbucket := hmem bucket List.mem_cons_self
    have hrest : ∀ r ∈ rest, r ∈ s.db.buckets.records := fun r hr => hmem r (List.mem_cons_of_mem _ hr)
    by_cases hlive : bucket.ownerId.all (· ∈ live)
    · rw [reclaim_cons_live hlive]
      obtain ⟨hframe, hrec⟩ := ih s hrest hnodup
      refine ⟨hframe, hrec.trans (List.map_congr_left (fun r _ => ?_))⟩
      by_cases hr : r = bucket
      · subst hr
        have hself : reclaimedRecord live ready r = r := by rw [reclaimedRecord, if_pos hlive]
        simp [hself]
      · simp [hr]
    · rw [reclaim_cons_dead hlive, runPass_write henv rfl]
      -- the records this write leaves, read off record by record
      have hafter : ∀ r ∈ s.db.buckets.records,
          Buckets.rewriteOne bucket.id (fun _ => true) (fun r => { r with
            ownerId := (heir ready bucket).1, successorId := none, state := (heir ready bucket).2,
            revision := r.revision + 1 }) r = if r = bucket then reclaimedRecord live ready r else r := by
        intro r hr
        by_cases hrb : r = bucket
        · subst hrb
          simp [Buckets.rewriteOne, reclaimedRecord, hlive]
        · have hid : r.id ≠ bucket.id := fun hid => hrb (Buckets.eq_of_id_eq hr hbucket hid)
          simp [Buckets.rewriteOne, hid, hrb]
      have hkept : ∀ r ∈ rest, r ∈ (s.db.buckets.setBucketAssignment bucket.id (heir ready bucket).1
          (heir ready bucket).2).records := by
        intro r hr
        have hrb : r ≠ bucket := fun he => hne r hr (congrArg _ he)
        exact List.mem_map.mpr ⟨r, hrest r hr, by rw [hafter r (hrest r hr), if_neg hrb]⟩
      obtain ⟨hframe, hrec⟩ := ih (s.wrote _ _) hkept hnodup
      refine ⟨(s.frame_wrote _ _ _ _).trans hframe, hrec.trans ?_⟩
      change List.map _ (List.map _ s.db.buckets.records) = _
      rw [List.map_map]
      refine List.map_congr_left (fun r hr => ?_)
      simp only [Function.comp_apply, hafter r hr]
      by_cases hrb : r = bucket
      · subst hrb
        have hout : reclaimedRecord live ready r ∉ rest :=
          fun hin => hne _ hin (reclaimedRecord_id r)
        simp [hout]
      · simp [hrb]

/-- A list without free buckets asks for nothing. -/
theorem assignFree_eq_ret {targets : WorkerId → Nat} {buckets : List BucketModel} (b : Balance)
    (h : ∀ r ∈ buckets, r.state ≠ .unassigned) : assignFree ready targets buckets b = .ret b := by
  induction buckets with
  | nil => rfl
  | cons r rest ih =>
    rw [assignFree, if_pos (h r List.mem_cons_self)]
    exact ih (fun r hr => h r (List.mem_cons_of_mem _ hr))

/-- The free-bucket loop never meets its early break: while a free bucket is
left the loads sum to less than the targets. -/
theorem run_assignFree (henv : env.Undisturbed) {targets : WorkerId → Nat} {Kept : BucketModel → Prop}
    (hassigned : ∀ r, Kept r → r.state ≠ .unassigned) (rest : List BucketModel) (s : Session) (b : Balance)
    (hmem : ∀ r ∈ rest, r ∈ s.db.buckets.records) (hnodup : (rest.map (·.id)).Nodup)
    (hgiven : ∀ r ∈ rest, r.state = .unassigned → ∀ d ∈ ready,
      Kept { r with ownerId := some d, successorId := none, state := .idle, revision := r.revision + 1 })
    (hall : ∀ r ∈ s.db.buckets.records, Kept r ∨ (FreeRecord r ∧ r ∈ rest))
    (ht : Tracks ready s.db.buckets b)
    (htotal : Loads.total ready.toFinset targets = s.db.buckets.records.length) :
    ∃ b' s', runPass env (assignFree ready targets rest b) s = (b', s') ∧ Frame s s' 0 ∧
      Tracks ready s'.db.buckets b' ∧ b'.moves = b.moves ∧
      (∀ r ∈ s'.db.buckets.records, Kept r) ∧
      (∀ w, reserved s'.db.buckets w = reserved s.db.buckets w) ∧ ∀ w, w ∉ ready → b'.loads w = b.loads w := by
  induction rest generalizing s b with
  | nil =>
    refine ⟨b, s, rfl, .refl s, ht, rfl, fun r hr => ?_, fun _ => rfl, fun _ _ => rfl⟩
    exact (hall r hr).resolve_right (fun h => by cases h.2)
  | cons bucket rest ih =>
    obtain ⟨hne, hnodup⟩ := ids_cons hnodup
    have hbucket := hmem bucket List.mem_cons_self
    have hrest : ∀ r ∈ rest, r ∈ s.db.buckets.records := fun r hr => hmem r (List.mem_cons_of_mem _ hr)
    have hgiven' := fun r hr => hgiven r (List.mem_cons_of_mem bucket hr)
    by_cases hstate : bucket.state = .unassigned
    · have hfree : FreeRecord bucket := (hall bucket hbucket).elim (fun h => absurd hstate (hassigned _ h)) (·.1)
      have hnone : effectiveOwner ready bucket = none := by
        simp [effectiveOwner, hfree.state, hfree.owner]
      have hlt : Loads.total ready.toFinset b.loads < Loads.total ready.toFinset targets := by
        rw [htotal, Loads.total_congr (fun w hw => ht.loads w (List.mem_toFinset.mp hw))]
        exact total_load_free hbucket hfree
      obtain ⟨d, hd⟩ := Option.ne_none_iff_exists'.mp (receiver_ne_none (by
        simpa using Loads.exists_under hlt))
      obtain ⟨hdready, -⟩ := receiver_spec hd
      rw [assignFree, if_neg (by simpa using hstate), hd]
      change ∃ b' s', runPass env (.await (.setBucketAssignment bucket.id (some d) .idle)
        (fun _ => assignFree ready targets rest (b.give bucket.id d))) s = (b', s') ∧ _
      rw [runPass_write henv rfl]
      -- the record just written is settled, the others are as before
      have hnew : effectiveOwner ready ({ bucket with
          ownerId := some d, successorId := none, state := .idle, revision := bucket.revision + 1 }) = some d := by
        simp [effectiveOwner]
      have hmem' := @Buckets.mem_updateOne _ _ hbucket (fun _ => true) rfl (fun r => { r with
        ownerId := some d, successorId := none, state := .idle, revision := r.revision + 1 })
      obtain ⟨b', s', hrun, hframe, ht', hmoves, hall', hres, hloads⟩ :=
        ih (s.wrote _ _) (b.give bucket.id d)
          (fun r hr => (hmem' r).mpr (.inr ⟨hrest r hr, hne r hr⟩)) hnodup hgiven'
          (fun r hr => by
            rcases (hmem' r).mp hr with rfl | ⟨hr, hid⟩
            · exact .inl (hgiven bucket List.mem_cons_self hstate d hdready)
            · refine (hall r hr).imp_right (fun h => ⟨h.1, ?_⟩)
              exact (List.mem_cons.mp h.2).resolve_left (fun he => hid (congrArg _ he)))
          (ht.give hbucket hnone rfl hnew)
          (by rw [htotal]; exact (Buckets.updateOne_length _ _ _ _).symm)
      refine ⟨b', s', hrun, (s.frame_wrote _ _ _ _).trans hframe, ht', hmoves, hall', fun w => ?_, fun w hw => ?_⟩
      swap
      · have hwd : w ≠ d := fun he => hw (he ▸ hdready)
        exact (hloads w hw).trans (Function.update_of_ne hwd ..)
      rw [hres]
      have hcount := @Buckets.countP_updateOne _ _ hbucket (fun _ => true) rfl (fun r => { r with
        ownerId := some d, successorId := none, state := .idle, revision := r.revision + 1 })
        (fun r => r.state = .draining ∧ r.successorId = some w)
      simp only [hstate, reduceCtorEq, false_and, decide_false, Bool.false_eq_true, if_false] at hcount
      exact hcount
    · rw [assignFree, if_pos hstate]
      refine ih s b hrest hnodup hgiven' (fun r hr => ?_) ht htotal
      refine (hall r hr).imp_right (fun h => ⟨h.1, ?_⟩)
      exact (List.mem_cons.mp h.2).resolve_left (fun he => hstate (he ▸ h.1.state))

/-- The move loop asks for nothing once nobody is above its target. -/
theorem moveBuckets_eq_ret {targets : WorkerId → Nat} {maxMoves : Nat} {state : BucketState}
    {buckets : List BucketModel} {b : Balance}
    (h : ∀ r ∈ buckets, ∃ w, b.effectiveOwner r.id = some (some w) ∧ b.loads w ≤ targets w) :
    moveBuckets ready targets maxMoves state buckets b = .ret (some b) := by
  induction buckets with
  | nil => rfl
  | cons r rest ih =>
    obtain ⟨w, hw, hle⟩ := h r List.mem_cons_self
    rw [moveBuckets, hw]
    split
    · rfl
    · simp only [hle, or_true, if_true]
      exact ih (fun r hr => h r (List.mem_cons_of_mem _ hr))

theorem moveBuckets_cons_mark {targets : WorkerId → Nat} {maxMoves : Nat} {state : BucketState}
    {bucket : BucketModel} {rest : List BucketModel} {b : Balance} {source d : WorkerId}
    (hfull : ¬ maxMoves ≤ b.moves) (hknown : b.effectiveOwner bucket.id = some (some source))
    (hgo : ¬ (bucket.state ≠ state ∨ b.loads source ≤ targets source))
    (hd : receiver ready targets b.loads = some d) :
    moveBuckets ready targets maxMoves state (bucket :: rest) b =
      .await (.markBucketDraining bucket.id source d) (fun marked =>
        if marked then moveBuckets ready targets maxMoves state rest (b.move bucket.id source d)
        else moveBuckets ready targets maxMoves state rest b) := by
  rw [moveBuckets, if_neg hfull, hknown]
  simp only [hgo, if_false, hd]
  rfl

/-- A pass of the move loop over some of the buckets in one state. Each mark takes
one unit of excess away, and a worker that stays above target keeps none of the
visited buckets and gains none. -/
structure MovePass (ready : List WorkerId) (targets : WorkerId → Nat) (state : BucketState) (visited : List BucketModel)
    (s s' : Session) (b b' : Balance) : Prop where
  frame : Frame s s' (b'.moves - b.moves)
  tracks : Tracks ready s'.db.buckets b'
  settled : ∀ r ∈ s'.db.buckets.records, Settled ready r
  total : Loads.total ready.toFinset b'.loads = Loads.total ready.toFinset b.loads
  moves_le : b.moves ≤ b'.moves
  budget : b'.moves + Loads.excess ready.toFinset targets b'.loads =
    b.moves + Loads.excess ready.toFinset targets b.loads
  others : ∀ r ∈ s.db.buckets.records, r.state ≠ state → r ∈ s'.db.buckets.records
  kept : ∀ w ∈ ready, targets w < b'.loads w → targets w < b.loads w ∧
    ∀ r ∈ s'.db.buckets.records, effectiveOwner ready r = some w →
      r ∈ s.db.buckets.records ∧ (r.state = state → r ∉ visited)

/-- A bucket that its owner, who is above target, can hand to a worker below. -/
structure Movable (ready : List WorkerId) (targets : WorkerId → Nat) (state : BucketState) (s : Session) (b : Balance)
    (bucket : BucketModel) (source d : WorkerId) : Prop where
  stored : bucket ∈ s.db.buckets.records
  state_eq : bucket.state = state
  source_ready : source ∈ ready
  successor_ready : d ∈ ready
  owner : bucket.ownerId = some source
  effective : effectiveOwner ready bucket = some source
  above : targets source < b.loads source
  below : b.loads d < targets d

/-- After `mark_bucket_draining`. -/
def Session.marked (s : Session) (bucket : BucketModel) (source d : WorkerId) : Session :=
  s.wrote (.markBucketDraining bucket.id source d) (s.db.buckets.markBucketDraining bucket.id source d)

namespace Movable

variable {targets : WorkerId → Nat} {state : BucketState} {s : Session} {b : Balance} {bucket : BucketModel}
  {source d : WorkerId}

theorem distinct (h : Movable ready targets state s b bucket source d) : source ≠ d := by
  have hover := h.above
  have hunder := h.below
  rintro rfl
  omega

theorem canDrain (h : Movable ready targets state s b bucket source d) (hheld : state.held) :
    Buckets.canDrain source bucket = true := by
  simp [Buckets.canDrain, h.owner, h.state_eq, hheld]

theorem effectiveOwner_marked (h : Movable ready targets state s b bucket source d) :
    effectiveOwner ready { bucket with state := .draining, successorId := some d, revision := bucket.revision + 1 } =
      some d := by
  simp [effectiveOwner, h.successor_ready]

/-- The record just written is in handoff to its successor, the others are as before. -/
theorem mem_marked (h : Movable ready targets state s b bucket source d) (hheld : state.held) (r : BucketModel) :
    r ∈ (s.marked bucket source d).db.buckets.records ↔
      r = { bucket with state := .draining, successorId := some d, revision := bucket.revision + 1 } ∨
        (r ∈ s.db.buckets.records ∧ r.id ≠ bucket.id) :=
  Buckets.mem_updateOne h.stored (h.canDrain hheld) _ r

theorem settled_marked (h : Movable ready targets state s b bucket source d) (hheld : state.held)
    (hall : ∀ r ∈ s.db.buckets.records, Settled ready r) :
    ∀ r ∈ (s.marked bucket source d).db.buckets.records, Settled ready r := by
  intro r hr
  obtain rfl | ⟨hr, -⟩ := (h.mem_marked hheld r).mp hr
  · exact ⟨by simp, ⟨source, h.source_ready, h.owner⟩, fun _ => ⟨d, h.successor_ready, rfl⟩⟩
  · exact hall r hr

theorem tracks_marked (h : Movable ready targets state s b bucket source d) (hheld : state.held)
    (ht : Tracks ready s.db.buckets b) :
    Tracks ready (s.marked bucket source d).db.buckets (b.move bucket.id source d) :=
  ht.move h.stored h.effective h.distinct (h.canDrain hheld) h.effectiveOwner_marked

theorem total_move (h : Movable ready targets state s b bucket source d) :
    Loads.total ready.toFinset (b.move bucket.id source d).loads = Loads.total ready.toFinset b.loads := by
  have hover := h.above
  exact Loads.total_move (List.mem_toFinset.mpr h.source_ready) (List.mem_toFinset.mpr h.successor_ready) (by omega)

theorem excess_move (h : Movable ready targets state s b bucket source d) :
    Loads.excess ready.toFinset targets (b.move bucket.id source d).loads + 1 =
      Loads.excess ready.toFinset targets b.loads :=
  Loads.excess_move (List.mem_toFinset.mpr h.source_ready) (List.mem_toFinset.mpr h.successor_ready) h.above h.below

/-- Who is above target after a move was so before, and did not gain the bucket. -/
theorem over_before (h : Movable ready targets state s b bucket source d) {w : WorkerId}
    (hw : targets w < (b.move bucket.id source d).loads w) : w ≠ d ∧ targets w < b.loads w := by
  have hunder := h.below
  change targets w < Loads.move b.loads source d w at hw
  by_cases hwd : w = d
  · rw [hwd, Loads.move_destination h.distinct] at hw
    omega
  by_cases hws : w = source
  · exact ⟨hwd, hws ▸ h.above⟩
  · rw [Loads.move_other hws hwd] at hw
    exact ⟨hwd, hw⟩

end Movable

namespace MovePass

variable {targets : WorkerId → Nat} {state : BucketState} {visited : List BucketModel} {s s' : Session} {b b' : Balance}
  {bucket : BucketModel} {source d : WorkerId}

/-- Nothing is moved where nothing is left to visit or nobody is above target. -/
theorem idle (ht : Tracks ready s.db.buckets b) (hall : ∀ r ∈ s.db.buckets.records, Settled ready r)
    (hover : ∀ w ∈ ready, targets w < b.loads w → visited = []) : MovePass ready targets state visited s s b b where
  frame := by simpa using Frame.refl s
  tracks := ht
  settled := hall
  total := rfl
  moves_le := le_refl _
  budget := rfl
  others _ hr _ := hr
  kept w hw hwover := by
    refine ⟨hwover, fun r hr _ => ⟨hr, fun _ => ?_⟩⟩
    rw [hover w hw hwover]
    exact List.not_mem_nil

/-- A bucket in another state, or one whose owner is not above target, is passed over. -/
theorem skip (h : MovePass ready targets state visited s s' b b')
    (heff : bucket.state = state → effectiveOwner ready bucket = some source)
    (hskip : bucket.state ≠ state ∨ b.loads source ≤ targets source) :
    MovePass ready targets state (bucket :: visited) s s' b b' where
  frame := h.frame
  tracks := h.tracks
  settled := h.settled
  total := h.total
  moves_le := h.moves_le
  budget := h.budget
  others := h.others
  kept w hw hwover := by
    obtain ⟨hbefore, hkept⟩ := h.kept w hw hwover
    refine ⟨hbefore, fun r hr hrw => ⟨(hkept r hr hrw).1, fun hst hin => ?_⟩⟩
    cases List.mem_cons.mp hin with
    | inl he =>
      subst he
      obtain rfl : w = source := Option.some.inj (hrw.symm.trans (heff hst))
      have hnot := hskip.resolve_left (not_not.mpr hst)
      omega
    | inr hin => exact (hkept r hr hrw).2 hst hin

/-- A bucket that is moved. -/
theorem mark (h : MovePass ready targets state visited (s.marked bucket source d) s' (b.move bucket.id source d) b')
    (hmovable : Movable ready targets state s b bucket source d) (hheld : state.held) :
    MovePass ready targets state (bucket :: visited) s s' b b' where
  frame := by
    have hmoves : b.moves + 1 ≤ b'.moves := h.moves_le
    have hmarks : 1 + (b'.moves - (b.move bucket.id source d).moves) = b'.moves - b.moves := by
      change 1 + (b'.moves - (b.moves + 1)) = _
      omega
    exact hmarks ▸ (s.frame_wrote _ _ _ _).trans h.frame
  tracks := h.tracks
  settled := h.settled
  total := h.total.trans hmovable.total_move
  moves_le := by
    have hmoves : b.moves + 1 ≤ b'.moves := h.moves_le
    omega
  budget := by
    have hbudget := h.budget
    have hexcess := hmovable.excess_move
    change _ = b.moves + 1 + _ at hbudget
    omega
  others r hr hst := by
    have hid : r.id ≠ bucket.id := by
      intro hid
      apply hst
      rw [Buckets.eq_of_id_eq hr hmovable.stored hid, hmovable.state_eq]
    exact h.others r ((hmovable.mem_marked hheld r).mpr (.inr ⟨hr, hid⟩)) hst
  kept w hw hwover := by
    obtain ⟨hbefore, hkept⟩ := h.kept w hw hwover
    obtain ⟨hwd, hwb⟩ := hmovable.over_before hbefore
    refine ⟨hwb, fun r hr hrw => ?_⟩
    obtain ⟨hmarked, hvisited⟩ := hkept r hr hrw
    obtain rfl | ⟨hstored, hid⟩ := (hmovable.mem_marked hheld r).mp hmarked
    · exact absurd (Option.some.inj (hrw.symm.trans hmovable.effectiveOwner_marked)) hwd
    · refine ⟨hstored, fun hst hin => ?_⟩
      cases List.mem_cons.mp hin with
      | inl he => exact hid (he ▸ rfl)
      | inr hin => exact hvisited hst hin

end MovePass

/-- The move loop never gives up: it returns after one such pass. -/
theorem run_moveBuckets (henv : env.Undisturbed) (targets : WorkerId → Nat) (maxMoves : Nat)
    {state : BucketState} (hheld : state.held) (rest : List BucketModel) (s : Session) (b : Balance)
    (hmem : ∀ r ∈ rest, r.state = state → r ∈ s.db.buckets.records)
    (hids : ∀ r ∈ rest, r.id ∈ s.db.buckets.records.map (·.id)) (hnodup : (rest.map (·.id)).Nodup)
    (hall : ∀ r ∈ s.db.buckets.records, Settled ready r) (ht : Tracks ready s.db.buckets b)
    (htotal : Loads.total ready.toFinset b.loads = Loads.total ready.toFinset targets)
    (hmax : b.moves + Loads.excess ready.toFinset targets b.loads ≤ maxMoves) :
    ∃ b' s', runPass env (moveBuckets ready targets maxMoves state rest b) s = (some b', s') ∧
      MovePass ready targets state rest s s' b b' := by
  induction rest generalizing s b with
  | nil => exact ⟨b, s, rfl, .idle ht hall (fun _ _ _ => rfl)⟩
  | cons bucket rest ih =>
    obtain ⟨hne, hnodup⟩ := ids_cons hnodup
    have hmem' : ∀ r ∈ rest, r.state = state → r ∈ s.db.buckets.records :=
      fun r hr => hmem r (List.mem_cons_of_mem _ hr)
    have hids' : ∀ r ∈ rest, r.id ∈ s.db.buckets.records.map (·.id) :=
      fun r hr => hids r (List.mem_cons_of_mem _ hr)
    by_cases hfull : maxMoves ≤ b.moves
    · -- the budget is only spent when no excess is left
      have hzero : Loads.excess ready.toFinset targets b.loads = 0 := by omega
      refine ⟨b, s, by rw [moveBuckets, if_pos hfull]; rfl, .idle ht hall (fun w hw hover => ?_)⟩
      have hle := Loads.le_of_excess_eq_zero hzero (List.mem_toFinset.mpr hw)
      omega
    obtain ⟨stored, hstored, hid⟩ := List.mem_map.mp (hids bucket List.mem_cons_self)
    obtain ⟨source, hsource, heff⟩ := (hall stored hstored).effectiveOwner_mem
    have hknown : b.effectiveOwner bucket.id = some (some source) := by
      rw [ht.known, ← hid, Buckets.get?_of_mem hstored, Option.map_some, heff]
    have hsame : bucket.state = state → bucket = stored := fun he =>
      Buckets.eq_of_id_eq (hmem bucket List.mem_cons_self he) hstored hid.symm
    by_cases hskip : bucket.state ≠ state ∨ b.loads source ≤ targets source
    · rw [moveBuckets, if_neg hfull, hknown]
      simp only [hskip, if_true]
      obtain ⟨b', s', hrun, hpass⟩ := ih s b hmem' hids' hnodup hall ht htotal hmax
      exact ⟨b', s', hrun, hpass.skip (fun hst => hsame hst ▸ heff) hskip⟩
    · have hgo := hskip
      push Not at hskip
      obtain ⟨hst, hover⟩ := hskip
      obtain rfl := hsame hst
      obtain ⟨d, hd⟩ := Option.ne_none_iff_exists'.mp (receiver_ne_none (by
        simpa using Loads.exists_under_of_over htotal (List.mem_toFinset.mpr hsource) hover))
      obtain ⟨hdready, hunder⟩ := receiver_spec hd
      have hdrain : bucket.state ≠ .draining := by
        rintro he; rw [← hst, he] at hheld; simp at hheld
      have howner : bucket.ownerId = some source := by
        rw [← Settled.effectiveOwner_held ready hdrain, heff]
      have hmovable : Movable ready targets state s b bucket source d :=
        ⟨hstored, hst, hsource, hdready, howner, heff, hover, hunder⟩
      have hmatch : s.db.buckets.matches? bucket.id (Buckets.canDrain source) = true := by
        rw [Buckets.matches?, Buckets.get?_of_mem hstored]; exact hmovable.canDrain hheld
      have hexcess := hmovable.excess_move
      have hmoves : (b.move bucket.id source d).moves = b.moves + 1 := rfl
      rw [moveBuckets_cons_mark hfull hknown hgo hd, runPass_write henv rfl]
      simp only [hmatch, if_true]
      obtain ⟨b', s', hrun, hpass⟩ := ih (s.marked bucket source d) (b.move bucket.id source d)
        (fun r hr he => (hmovable.mem_marked hheld r).mpr (.inr ⟨hmem' r hr he, hne r hr⟩))
        (fun r hr => by
          change r.id ∈ (s.db.buckets.updateOne _ _ _).records.map (·.id)
          rw [Buckets.updateOne_ids]; exact hids' r hr)
        hnodup (hmovable.settled_marked hheld hall) (hmovable.tracks_marked hheld ht)
        (hmovable.total_move.trans htotal) (by omega)
      exact ⟨b', s', hrun, hpass.mark hmovable hheld⟩

theorem promoteDrained_cons {self successor : WorkerId} {buckets : List BucketModel} {id : Nat}
    {rest : List Nat}
    (h : (buckets.find? (fun bucket => bucket.id = id)).bind (·.successorId) = some successor) :
    promoteDrained self buckets (id :: rest) =
      .await (.promoteDrainedBucket id self successor) (fun _ => promoteDrained self buckets rest) := by
  rw [promoteDrained, h]
  rfl

/-- Promotion turns a handoff into ownership by the same worker: loads stay. -/
theorem run_promoteDrained (henv : env.Undisturbed) (self : WorkerId) (buckets : List BucketModel)
    (ids : List Nat) (s : Session) (hall : ∀ r ∈ s.db.buckets.records, Settled ready r) :
    Frame s (runPass env (promoteDrained self buckets ids) s).2 0 ∧
    (∀ r ∈ (runPass env (promoteDrained self buckets ids) s).2.db.buckets.records, Settled ready r) ∧
    ∀ w, load ready (runPass env (promoteDrained self buckets ids) s).2.db.buckets w =
      load ready s.db.buckets w := by
  induction ids generalizing s with
  | nil => exact ⟨.refl s, hall, fun _ => rfl⟩
  | cons id rest ih =>
    cases hfind : (buckets.find? (fun bucket => bucket.id = id)).bind (·.successorId) with
    | none =>
      rw [promoteDrained, hfind]
      exact ih s hall
    | some successor =>
      rw [promoteDrained_cons hfind, runPass_write henv rfl]
      have hone : Frame s (s.wrote (.promoteDrainedBucket id self successor)
          (s.db.buckets.promoteDrainedBucket id self successor)) 0 := s.frame_wrote _ _ _ _
      by_cases hm : s.db.buckets.matches? id (Buckets.canPromote self successor)
      · obtain ⟨r, hr, rfl, hcan⟩ := Buckets.exists_of_matches hm
        obtain ⟨howner, hsucc, hstate⟩ := Buckets.canPromote_iff.mp hcan
        obtain ⟨w, hw, he⟩ := (hall r hr).successor hstate
        obtain rfl : successor = w := Option.some.inj (hsucc.symm.trans he)
        have hmem := Buckets.mem_updateOne hr hcan (fun r => { r with
          ownerId := some successor, successorId := none, state := .idle, revision := r.revision + 1 })
        have hall' : ∀ x ∈ (s.db.buckets.promoteDrainedBucket r.id self successor).records,
            Settled ready x := by
          intro x hx
          rcases (hmem x).mp hx with rfl | ⟨hx, -⟩
          · exact ⟨by simp, ⟨successor, hw, rfl⟩, by simp⟩
          · exact hall x hx
        obtain ⟨hframe, hset, hload⟩ := ih (s.wrote _ _) hall'
        refine ⟨hone.trans hframe, hset, fun v => (hload v).trans ?_⟩
        have hl := load_updateOne ready hr hcan (fun r => { r with
          ownerId := some successor, successorId := none, state := .idle, revision := r.revision + 1 }) v
        have hbefore : effectiveOwner ready r = some successor := by
          rw [(hall r hr).effectiveOwner_draining hstate, hsucc]
        rw [hbefore] at hl
        simp only [effectiveOwner, reduceCtorEq, false_and, if_false, Nat.add_right_cancel_iff] at hl
        exact hl
      · have hsame : s.db.buckets.promoteDrainedBucket id self successor = s.db.buckets :=
          Buckets.updateOne_of_not_matches (by simpa using hm) _
        obtain ⟨hframe, hset, hload⟩ := ih (s.wrote (.promoteDrainedBucket id self successor)
          (s.db.buckets.promoteDrainedBucket id self successor)) (by rw [hsame]; exact hall)
        exact ⟨hone.trans hframe, hset, fun v => (hload v).trans (by rw [hsame]; rfl)⟩

theorem Session.frame_asked (s : Session) (call : Call) (h : call.marks = false) :
    Frame s (s.asked call) 0 where
  workers := rfl
  ids := rfl
  marks := by simp [Session.marks, Session.asked, h]

end Phases

end Linksurf
