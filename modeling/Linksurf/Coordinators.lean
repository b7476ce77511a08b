import Linksurf.Records

/-!
# Coordinators in any order

The most permissive system around the stored records: any number of protocol
coroutines of any workers at once, records being created in between, the
workers collection changing at will, and every answer that does not come from
the database chosen freely, the coordination lock's included.
-/
namespace Linksurf

open Coroutine Execution Pool

/-- A database call acts on the records; the rest is answered from outside. -/
def Database.serve (answer : (call : Call) → call.Reply) (call : Call) (db : Database) :
    Option (call.Reply × Database) :=
  match db.execute call with
  | some result => some result
  | none => some (answer call, db)

abbrev Coordinators := Pool.State Nat Database Call Call.Reply

def Coordinators.initial : Coordinators := ⟨⟨.empty, .empty⟩, fun _ => none⟩

inductive CoordinatorAction where
  /-- One upsert of `ensure_bucket_records`. -/
  | ensure (bucket : Nat)
  /-- The workers collection becomes any other. -/
  | workers (workers : Workers)
  | coordinate (thread : Nat) (self : WorkerId)
  | release (thread : Nat) (self : WorkerId)
  | publish (thread : Nat) (self : WorkerId)
  /-- A coroutine issues its next operation. -/
  | run (thread : Nat) (answer : (call : Call) → call.Reply)
  /-- A coroutine is cancelled or fails. -/
  | abort (thread : Nat)

def Coordinators.step (moves : BucketMoves) (p : Coordinators) : CoordinatorAction → Option Coordinators
  | .ensure bucket => some { p with shared := { p.shared with buckets := p.shared.buckets.ensureOne bucket } }
  | .workers workers => some { p with shared := { p.shared with workers } }
  | .coordinate thread self => some (p.spawn thread (Linksurf.coordinate moves self))
  | .release thread self => some (p.spawn thread (Linksurf.release self))
  | .publish thread self => some (p.spawn thread (publishLocalBucketStates self))
  | .run thread answer =>
    if (answer .bucketStates).all (fun e => e.2.held) then p.run (Database.serve answer) thread else none
  | .abort thread => some { p with threads := Function.update p.threads thread none }

/-- A call of `ensure_bucket_records` is its upserts in the order of the ids. -/
theorem run_ensure (moves : BucketMoves) (p : Coordinators) (count : Nat) :
    run (Coordinators.step moves) p ((List.range' 1 count).map .ensure) =
      some { p with shared := { p.shared with buckets := p.shared.buckets.ensureBucketRecords count } } := by
  have hids : ∀ (ids : List Nat) (p : Coordinators), run (Coordinators.step moves) p (ids.map .ensure) =
      some { p with shared := { p.shared with buckets := ids.foldl Buckets.ensureOne p.shared.buckets } } := by
    intro ids
    induction ids with
    | nil => exact fun p => rfl
    | cons id ids ih => exact fun p => ih _
  exact hids _ p

/-- The step is the thread's report of bucket activity. -/
def Coordinators.Reports (p : Coordinators) (action : CoordinatorAction) : Prop :=
  ∃ thread answer worker states k, action = .run thread answer ∧
    p.threads thread = some (.await (.syncOwnedBucketStates worker states) k)

/-! ## The discipline -/

/-- Threads rely on nothing and owe coherent calls. -/
def bookkeeping : Discipline Nat Database Call Call.Reply where
  inv db := ∀ r ∈ db.buckets.records, r.WellFormed
  rely _ _ _ := True
  pre _ call _ := call.Coherent
  exec _ call db reply db' := call.Honest reply ∧ ∃ answer, db.serve answer call = some (reply, db')
  refl _ _ := trivial
  trans _ _ := trivial

variable {moves : BucketMoves} {p p' : Coordinators} {action : CoordinatorAction}

theorem bookkeeping_safe {c : Async Unit} (h : Coherently c) (thread : Nat) (db : Database) :
    bookkeeping.Safe thread (fun _ _ => True) c db := by
  induction c generalizing db with
  | ret a => exact fun _ _ _ => trivial
  | await call k ih => exact fun db' _ _ => ⟨h.1, fun reply db'' he => ih reply (h.2 reply he.1) db''⟩

theorem honest_serve {answer : (call : Call) → call.Reply} (ha : ∀ e ∈ answer .bucketStates, e.2.held)
    {call : Call} {db db' : Database} {reply : call.Reply} (h : db.serve answer call = some (reply, db')) :
    call.Honest reply := by
  cases call with
  | bucketStates => cases h; exact ha
  | _ => exact trivial

/-- A served call either is a database call or leaves the database alone. -/
theorem serve_written {answer : (call : Call) → call.Reply} {call : Call} (hc : call.Coherent)
    {db db' : Database} {reply : call.Reply} (h : db.serve answer call = some (reply, db')) :
    db.buckets.Rel (fun r r' => r.Written r' ∧ (r.WellFormed → r'.WellFormed)) db'.buckets := by
  unfold Database.serve at h
  split at h
  · rename_i result he
    cases h
    exact execute_written hc he
  · cases h
    exact Buckets.rel_refl (fun r => ⟨.inl (.refl r), id⟩) _

theorem wellFormed_of_rel {c c' : Buckets}
    (h : c.Rel (fun r r' => r.Written r' ∧ (r.WellFormed → r'.WellFormed)) c')
    (hc : ∀ r ∈ c.records, r.WellFormed) : ∀ r ∈ c'.records, r.WellFormed := by
  intro r' hr'
  obtain ⟨r, hr, -, hw⟩ := h.back (Buckets.get?_of_mem hr')
  exact hw (hc r (Buckets.get?_mem hr))

theorem wellFormed_ensureOne {c : Buckets} (hc : ∀ r ∈ c.records, r.WellFormed) (bucket : Nat) :
    ∀ r ∈ (c.ensureOne bucket).records, r.WellFormed := by
  intro r hr
  rcases Buckets.mem_insertRecord hr with rfl | hr
  · exact ⟨by simp, by simp, by simp⟩
  · exact hc r hr

theorem holds_step (h : bookkeeping.Holds p) (hstep : p.step moves action = some p') : bookkeeping.Holds p' := by
  cases action with
  | ensure bucket =>
    cases hstep
    exact h.change (wellFormed_ensureOne h.inv bucket) (fun t c ht => .inl ⟨ht, trivial⟩)
  | workers workers =>
    cases hstep
    exact h.change h.inv (fun t c ht => .inl ⟨ht, trivial⟩)
  | coordinate thread self => cases hstep; exact h.spawn (bookkeeping_safe coherently_coordinate thread _)
  | release thread self => cases hstep; exact h.spawn (bookkeeping_safe coherently_release thread _)
  | publish thread self => cases hstep; exact h.spawn (bookkeeping_safe coherently_publish thread _)
  | run thread answer =>
    simp only [Coordinators.step] at hstep
    split at hstep
    · rename_i ha
      have hhonest : ∀ e ∈ answer .bucketStates, e.2.held := by simpa using ha
      refine h.run (fun call reply db he => ⟨honest_serve hhonest he, answer, he⟩) ?_ hstep
      rintro call reply db hpre ⟨-, answer', he⟩
      exact ⟨wellFormed_of_rel (serve_written hpre he) h.inv, fun _ _ => trivial⟩
    · cases hstep
  | abort thread =>
    cases hstep
    refine h.change h.inv (fun t c ht => .inl ⟨?_, trivial⟩)
    by_cases htt : t = thread
    · subst htt; simp at ht
    · simpa [htt] using ht

theorem holds_of_reaches (h : Reaches (Coordinators.step moves) Free .initial p) : bookkeeping.Holds p :=
  h.invariant bookkeeping.Holds ⟨(by intro r hr; cases hr), (by intro t c hc; cases hc)⟩
    (fun _ _ _ hp _ hs => holds_step hp hs)

/-! ## One step of the system on one record -/

/-- Each step creates records, writes each record once, or reports activity. -/
theorem step_written (h : bookkeeping.Holds p) (hstep : p.step moves action = some p') {r : BucketModel}
    (hr : r ∈ p.shared.buckets.records) : ∃ r' ∈ p'.shared.buckets.records, r'.id = r.id ∧ r.Written r' := by
  cases action with
  | ensure bucket =>
    cases hstep
    exact ⟨r, Buckets.subset_insertRecord hr, rfl, .inl (.refl r)⟩
  | run thread answer =>
    simp only [Coordinators.step] at hstep
    split at hstep
    · rcases State.run_cases hstep with ⟨a, -, rfl⟩ | ⟨call, k, reply, db, hc, he, rfl⟩
      · exact ⟨r, hr, rfl, .inl (.refl r)⟩
      · obtain ⟨r', hr', hw, -⟩ := (serve_written (h.pre hc) he).forth (Buckets.get?_of_mem hr)
        exact ⟨r', Buckets.get?_mem hr', Buckets.get?_id hr', hw⟩
    · cases hstep
  | workers | coordinate | release | publish | abort => cases hstep; exact ⟨r, hr, rfl, .inl (.refl r)⟩

theorem step_reported (h : bookkeeping.Holds p) (hstep : p.step moves action = some p')
    (hreports : p.Reports action) {r : BucketModel} (hr : r ∈ p.shared.buckets.records) :
    ∃ r' ∈ p'.shared.buckets.records, r.SameAssignment r' := by
  obtain ⟨thread, answer, worker, states, k, rfl, hc⟩ := hreports
  simp only [Coordinators.step] at hstep
  split at hstep
  · rcases State.run_cases hstep with ⟨a, ha, -⟩ | ⟨call, k', reply, db, hc', he, rfl⟩
    · rw [hc] at ha; cases ha
    · rw [hc] at hc'
      cases hc'
      cases he
      obtain ⟨r', hr', hsame⟩ :=
        (Buckets.rel_syncOwnedBucketStates worker p.shared.buckets (h.pre hc)).forth (Buckets.get?_of_mem hr)
      exact ⟨r', Buckets.get?_mem hr', hsame⟩
  · cases hstep

/-- Under any interleaving every record stays well formed, its revision never
decreases and counts every reassignment, and reports leave it alone. -/
theorem records_well_formed (moves : BucketMoves) (p : Coordinators)
    (h : Reaches (Coordinators.step moves) Free .initial p) :
    (∀ r ∈ p.shared.buckets.records,
      (r.state = .unassigned ↔ r.ownerId = none) ∧
      (r.state = .unassigned → r.successorId = none) ∧
      (r.state.held → r.ownerId ≠ none ∧ r.successorId = none) ∧
      (r.state = .draining → ∃ owner successor, r.ownerId = some owner ∧ r.successorId = some successor ∧
        owner ≠ successor)) ∧
    ∀ action p', p.step moves action = some p' → ∀ r ∈ p.shared.buckets.records,
      ∃ r' ∈ p'.shared.buckets.records, r'.id = r.id ∧ r.revision ≤ r'.revision ∧
        (r.Reassigned r' → r'.revision = r.revision + 1) ∧
        (p.Reports action → r'.ownerId = r.ownerId ∧ r'.successorId = r.successorId ∧ r'.revision = r.revision) := by
  have hp := holds_of_reaches h
  constructor
  · intro r hr
    have hw := hp.inv r hr
    have hsucc : r.state ≠ .draining → r.successorId = none :=
      fun hs => by_contra (fun hne => hs (hw.draining.mpr hne))
    refine ⟨hw.unassigned, fun hu => hsucc (by simp [hu]), fun hheld => ⟨fun ho => ?_, ?_⟩, fun hd => ?_⟩
    · rw [hw.unassigned.mpr ho] at hheld
      exact not_held_unassigned hheld
    · exact hsucc (fun hd => not_held_draining (hd ▸ hheld))
    · have hne := hw.draining.mp hd
      obtain ⟨successor, hs⟩ := Option.ne_none_iff_exists'.mp hne
      obtain ⟨owner, ho⟩ := Option.ne_none_iff_exists'.mp (fun ho => by
        rw [hw.unassigned.mpr ho] at hd; cases hd)
      refine ⟨owner, successor, ho, hs, ?_⟩
      rintro rfl
      exact hw.distinct hne (hs.trans ho.symm)
  · intro action p' hstep r hr
    obtain ⟨r', hr', hid, hw⟩ := step_written hp hstep hr
    refine ⟨r', hr', hid, ?_, fun hre => hw.elim (fun hs => absurd hre hs.not_reassigned) And.right, ?_⟩
    · rcases hw with hs | ⟨-, hrev⟩
      · exact le_of_eq hs.revision.symm
      · omega
    · intro hreports
      obtain ⟨r'', hr'', hs⟩ := step_reported hp hstep hreports hr
      obtain rfl := Buckets.eq_of_id_eq hr'' hr' (hs.id.trans hid.symm)
      exact ⟨hs.owner, hs.successor, hs.revision⟩

/-- A pass of the only worker is about to end: the one bucket has an owner. -/
theorem records_well_formed_assigned : ∃ p, Reaches (Coordinators.step .all) Free .initial p ∧
    (∃ r ∈ p.shared.buckets.records, r.ownerId = some "a") ∧
    ∀ r ∈ p.shared.buckets.records, r.state = .unassigned ↔ r.ownerId = none := by
  obtain ⟨p, hp, howned⟩ := exists_reaches_free (Coordinators.step .all) .initial
    ([.ensure 1, .workers ⟨[⟨"a", .ready, 100⟩], List.pairwise_singleton _ _⟩, .coordinate 0 "a"] ++
      List.replicate 10 (.run 0 (Surroundings.answer ⟨0, false, [], fun _ db => db⟩)))
    (fun p => p.shared.buckets.records.any (fun r => r.ownerId = some "a")) (by decide +kernel)
  refine ⟨p, hp, by simpa using howned, fun r hr => ?_⟩
  exact ((records_well_formed .all p hp).1 r hr).1

end Linksurf
