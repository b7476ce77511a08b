import Linksurf.Records

/-!
# What a pass owes

A pass decides on lists it read earlier. Proved here for any discipline in
which the others leave assignments alone: when it writes an assignment the
record is still free or still owned by a worker outside the live list, and every
worker it gives a bucket to is in the ready list. The knowledge a pass carries
besides the lists is a parameter.
-/
namespace Linksurf

open Coroutine Pool

namespace Buckets

variable {c c' c'' : Buckets}

/-- Assignments are as they were; new records are free. -/
structure Kept (c c' : Buckets) : Prop where
  forth : ∀ id r, c.get? id = some r → ∃ r', c'.get? id = some r' ∧ r.SameAssignment r'
  back : ∀ id r', c'.get? id = some r' → FreeRecord r' ∨ ∃ r, c.get? id = some r ∧ r.SameAssignment r'

theorem kept_of_rel (h : c.Rel BucketModel.SameAssignment c') : c.Kept c' where
  forth _ _ hr := h.forth hr
  back _ _ hr' := .inr (h.back hr')

theorem Kept.refl (c : Buckets) : c.Kept c := kept_of_rel (rel_refl .refl c)

theorem kept_ensureOne (c : Buckets) (bucket : Nat) : c.Kept (c.ensureOne bucket) where
  forth id r hr := by
    rcases get?_ensureOne c bucket id with h | ⟨hnone, -⟩
    · exact ⟨r, h.trans hr, .refl r⟩
    · rw [hnone] at hr; cases hr
  back id r' hr' := by
    rcases get?_ensureOne c bucket id with h | ⟨-, hnew⟩
    · exact .inr ⟨r', h ▸ hr', .refl r'⟩
    · rw [hnew] at hr'
      cases hr'
      exact .inl ⟨rfl, rfl⟩

theorem free_of_same {r r' : BucketModel} (hs : r.SameAssignment r') (hf : FreeRecord r) : FreeRecord r' :=
  ⟨(hs.state_iff not_held_unassigned).mpr hf.state, hs.owner.trans hf.owner⟩

theorem Kept.trans (h : c.Kept c') (h' : c'.Kept c'') : c.Kept c'' where
  forth id r hr := by
    obtain ⟨r', hr', hs⟩ := h.forth id r hr
    obtain ⟨r'', hr'', hs'⟩ := h'.forth id r' hr'
    exact ⟨r'', hr'', hs.trans hs'⟩
  back id r'' hr'' := by
    rcases h'.back id r'' hr'' with hf | ⟨r', hr', hs'⟩
    · exact .inl hf
    · rcases h.back id r' hr' with hf | ⟨r, hr, hs⟩
      · exact .inl (free_of_same hs' hf)
      · exact .inr ⟨r, hr, hs.trans hs'⟩

/-- The listed records are still stored with the same assignments. -/
def Agrees (rest : List BucketModel) (c : Buckets) : Prop :=
  ∀ r ∈ rest, ∃ r', c.get? r.id = some r' ∧ r.SameAssignment r'

theorem agrees_records (c : Buckets) : Agrees c.records c := fun r hr => ⟨r, get?_of_mem hr, .refl r⟩

theorem Agrees.kept {rest : List BucketModel} (h : Agrees rest c) (hk : c.Kept c') : Agrees rest c' := by
  intro r hr
  obtain ⟨r', hr', hs⟩ := h r hr
  obtain ⟨r'', hr'', hs'⟩ := hk.forth _ _ hr'
  exact ⟨r'', hr'', hs.trans hs'⟩

/-- A write to the first listed bucket leaves the others alone. -/
theorem Agrees.tail {r : BucketModel} {rest : List BucketModel} (h : Agrees (r :: rest) c)
    (hn : ((r :: rest).map (·.id)).Nodup) (filter : BucketModel → Bool) (update : BucketModel → BucketModel) :
    Agrees rest (c.updateOne r.id filter update) := by
  intro x hx
  obtain ⟨hnot, -⟩ := List.nodup_cons.mp hn
  have hid : x.id ≠ r.id := fun e => hnot (List.mem_map.mpr ⟨x, hx, e⟩)
  rw [get?_updateOne_other c hid]
  exact h x (List.mem_cons_of_mem _ hx)

/-- Every owner is in the list. -/
def OwnedBy (live : List WorkerId) (c : Buckets) : Prop :=
  ∀ id r, c.get? id = some r → ∀ owner, r.ownerId = some owner → owner ∈ live

/-- Every owner is in the list, but perhaps for the listed buckets. -/
def OwnedExcept (live : List WorkerId) (rest : List BucketModel) (c : Buckets) : Prop :=
  ∀ id r, c.get? id = some r → (∀ owner, r.ownerId = some owner → owner ∈ live) ∨ id ∈ rest.map (·.id)

theorem OwnedExcept.kept {live : List WorkerId} {rest : List BucketModel} (h : OwnedExcept live rest c)
    (hk : c.Kept c') : OwnedExcept live rest c' := by
  intro id r' hr'
  rcases hk.back id r' hr' with hf | ⟨r, hr, hs⟩
  · exact .inl (fun owner ho => by rw [hf.owner] at ho; cases ho)
  · rw [hs.owner]; exact h id r hr

theorem OwnedExcept.updateOne {live : List WorkerId} {r : BucketModel} {rest : List BucketModel}
    (h : OwnedExcept live (r :: rest) c) {filter : BucketModel → Bool} {update : BucketModel → BucketModel}
    (hf : ∀ x, filter x = true) (hu : ∀ x owner, (update x).ownerId = some owner → owner ∈ live) :
    OwnedExcept live rest (c.updateOne r.id filter update) := by
  intro id x hx
  by_cases hid : id = r.id
  · subst hid
    rw [get?_updateOne_same] at hx
    obtain ⟨y, -, rfl⟩ := Option.map_eq_some_iff.mp hx
    refine .inl (fun owner ho => hu y owner ?_)
    simpa [hf y] using ho
  · rw [get?_updateOne_other c hid] at hx
    rcases h id x hx with ho | hin
    · exact .inl ho
    · exact .inr ((List.mem_cons.mp hin).resolve_left hid)

theorem ownedBy_iff {live : List WorkerId} : OwnedBy live c ↔ OwnedExcept live [] c := by
  simp [OwnedBy, OwnedExcept]

theorem OwnedBy.kept {live : List WorkerId} (h : OwnedBy live c) (hk : c.Kept c') : OwnedBy live c' :=
  ownedBy_iff.mpr ((ownedBy_iff.mp h).kept hk)

/-- An update that leaves owners alone or names one of the list. -/
theorem OwnedBy.updateOne {live : List WorkerId} (h : OwnedBy live c) {id : Nat} {filter : BucketModel → Bool}
    {update : BucketModel → BucketModel}
    (hu : ∀ x, filter x = true → (update x).ownerId = x.ownerId ∨
      ∀ owner, (update x).ownerId = some owner → owner ∈ live) :
    OwnedBy live (c.updateOne id filter update) := by
  intro id' x hx owner ho
  rw [get?_updateOne] at hx
  obtain ⟨y, hy, rfl⟩ := Option.map_eq_some_iff.mp hx
  unfold rewriteOne at ho
  split at ho
  · rename_i hmatch
    rcases hu y hmatch.2 with he | hall
    · exact h id' y hy owner (he ▸ ho)
    · exact hall owner ho
  · exact h id' y hy owner ho

end Buckets

/-! ## The contract -/

/-- What a pass owes for a call, with the workers it read as live and ready. -/
def Owes (live ready : List WorkerId) (c : Buckets) : Call → Prop
  | .setBucketAssignment bucket owner state =>
    (∀ r, c.get? bucket = some r → r.state = .unassigned ∨ ∃ o, r.ownerId = some o ∧ o ∉ live) ∧
    (∀ d, owner = some d → d ∈ ready) ∧ state ≠ .draining
  | .markBucketDraining _ _ successor => successor ∈ ready
  | .getBuckets => True
  | _ => False

/-- The part of `allocate` after the workers were read. -/
def allocateAmong (liveWorkers : List WorkerModel) : Async (Option Plan) := do
  let liveIds := liveIds liveWorkers
  let readyIds := readyIds liveWorkers
  let buckets ← await .getBuckets
  reclaim liveIds readyIds buckets
  if readyIds = [] then
    return none
  let buckets ← await .getBuckets
  let targets := targetCounts readyIds buckets.length
  let balance ← assignFree readyIds targets buckets (.ofBuckets readyIds buckets)
  return some { readyIds, targets, balance }

/-- The part of `allocate` that reads them. -/
def readWorkers : Async (List WorkerModel) := do
  let now ← await .now
  await (.deleteExpiredWorkers now)
  await (.getLiveWorkers now)

/-- The part of `reconcile` after `allocate`. -/
def rebalance (maxBucketMoves : BucketMoves) (self : WorkerId) : Option Plan → Async (Option Unit)
  | none => return some ()
  | some plan => do
    let buckets ← await .getBuckets
    match ← moveAll maxBucketMoves plan buckets with
    | none => return none
    | some _ =>
      promoteLocal self buckets
      return some ()

theorem reconcile_eq (moves : BucketMoves) (self : WorkerId) : reconcile moves self =
    readWorkers >>= fun workers => allocateAmong workers >>= rebalance moves self := rfl

theorem readyIds_subset (workers : List WorkerModel) : ∀ d ∈ readyIds workers, d ∈ liveIds workers := by
  intro d hd
  rw [readyIds, List.mem_insertionSort, List.mem_map] at hd
  obtain ⟨worker, hw, rfl⟩ := hd
  exact List.mem_map_of_mem (List.mem_of_mem_filter hw)

section Contract

variable {T S : Type} {D : Discipline T S Call Call.Reply} {t : T} {db : S → Database}
  {live ready : List WorkerId}

/-- Knowledge that survives the others and the pass's own calls, under which
what is owed to the contract is owed to the discipline. -/
structure Knows (D : Discipline T S Call Call.Reply) (t : T) (db : S → Database) (live ready : List WorkerId)
    (K : S → Prop) : Prop where
  stable : D.Stable t K
  kept : ∀ s s', D.inv s' → K s → D.rely t s s' → (db s).buckets.Kept (db s').buckets
  execute : ∀ s call r s', D.inv s → K s → Owes live ready (db s).buckets call → D.exec t call s r s' →
    K s' ∧ (db s).execute call = some (r, db s')
  pays : ∀ s call, D.inv s → K s → Owes live ready (db s).buckets call → D.pre t call s
  ready : ∀ d ∈ ready, d ∈ live

variable {K : S → Prop}

theorem Knows.stable_with (h : Knows D t db live ready K) {A : Buckets → Prop}
    (hA : ∀ c c' : Buckets, A c → c.Kept c' → A c') : D.Stable t (fun s => K s ∧ A (db s).buckets) :=
  fun s s' hinv hr hs => ⟨h.stable s s' hinv hr hs.1, hA _ _ hs.2 (h.kept s s' hinv hs.1 hr)⟩

/-- One call of a pass, from an assertion about the records. -/
theorem Knows.await (h : Knows D t db live ready K) {A : Buckets → Prop}
    (hA : ∀ c c' : Buckets, A c → c.Kept c' → A c') {s : S} (hs : K s ∧ A (db s).buckets) {α : Type}
    {post : α → S → Prop} {call : Call} {k : call.Reply → Async α}
    (howes : ∀ c, A c → Owes live ready c call)
    (hk : ∀ s r s', K s' → A (db s).buckets → (db s).execute call = some (r, db s') → D.Safe t post (k r) s') :
    D.Safe t post (Linksurf.await call >>= k) s := by
  refine Discipline.safe_await (h.stable_with hA) hs (fun s hinv hs => h.pays s call hinv hs.1 (howes _ hs.2)) ?_
  intro s hinv hs r s' he
  obtain ⟨hK, hdb⟩ := h.execute s call r s' hinv hs.1 (howes _ hs.2) he
  exact hk s r s' hK hs.2 hdb

/-- Every bucket of an owner outside the live list is reclaimed. -/
theorem Knows.reclaim (h : Knows D t db live ready K) (rest : List BucketModel) (hn : (rest.map (·.id)).Nodup)
    {s : S} (hs : K s ∧ Buckets.Agrees rest (db s).buckets ∧ Buckets.OwnedExcept live rest (db s).buckets) :
    D.Safe t (fun _ s => K s ∧ Buckets.OwnedBy live (db s).buckets) (Linksurf.reclaim live ready rest) s := by
  induction rest generalizing s with
  | nil =>
    refine Discipline.safe_ret (h.stable_with (A := Buckets.OwnedExcept live [])
      (fun _ _ ho hk => ho.kept hk)) ⟨hs.1, hs.2.2⟩ (fun s _ hs => ?_)
    exact ⟨hs.1, Buckets.ownedBy_iff.mpr hs.2⟩
  | cons bucket rest ih =>
    obtain ⟨-, hn'⟩ := List.nodup_cons.mp hn
    by_cases hlive : bucket.ownerId.all (· ∈ live)
    · rw [reclaim_cons_live hlive]
      refine ih hn' ⟨hs.1, fun r hr => hs.2.1 r (List.mem_cons_of_mem _ hr), fun id r hr => ?_⟩
      rcases hs.2.2 id r hr with ho | hin
      · exact .inl ho
      · rcases List.mem_cons.mp hin with rfl | hin
        · obtain ⟨r', hr', hsame⟩ := hs.2.1 bucket List.mem_cons_self
          obtain rfl := Option.some.inj (hr'.symm.trans hr)
          refine .inl (fun owner ho => ?_)
          rw [hsame.owner] at ho
          simpa [ho] using hlive
        · exact .inr hin
    · rw [reclaim_cons_dead hlive]
      obtain ⟨o, ho, hdead⟩ : ∃ o, bucket.ownerId = some o ∧ o ∉ live := by
        cases ho : bucket.ownerId with
        | none => simp [ho] at hlive
        | some o => exact ⟨o, rfl, by simpa [ho] using hlive⟩
      have hheir : ∀ d, (heir ready bucket).1 = some d → d ∈ ready := by
        intro d hd
        unfold heir at hd
        split at hd
        · rename_i hb
          obtain ⟨d', hd', hin⟩ := (Option.any_eq_true _ _).mp hb.2
          obtain rfl := Option.some.inj (hd'.symm.trans hd)
          simpa using hin
        · cases hd
      have hstate : (heir ready bucket).2 ≠ .draining := by unfold heir; split <;> simp
      refine h.await (A := fun c => Buckets.Agrees (bucket :: rest) c ∧ Buckets.OwnedExcept live (bucket :: rest) c)
        (fun _ _ hA hk => ⟨hA.1.kept hk, hA.2.kept hk⟩) hs (fun c hA => ⟨fun r hr => .inr ?_, hheir, hstate⟩) ?_
      · obtain ⟨r', hr', hsame⟩ := hA.1 bucket List.mem_cons_self
        obtain rfl := Option.some.inj (hr'.symm.trans hr)
        exact ⟨o, hsame.owner.trans ho, hdead⟩
      · intro s r s' hK hA he
        simp only [Database.execute, Option.some.injEq, Prod.mk.injEq] at he
        refine ih hn' ⟨hK, ?_⟩
        rw [← he.2]
        exact ⟨hA.1.tail hn _ _, hA.2.updateOne (fun _ => rfl) (fun x owner ho' => h.ready owner (hheir owner ho'))⟩

/-- Free buckets are given away while they are still free. -/
theorem Knows.assignFree (h : Knows D t db live ready K) (targets : WorkerId → Nat) (rest : List BucketModel)
    (hn : (rest.map (·.id)).Nodup) {s : S} {b : Balance}
    (hs : K s ∧ Buckets.Agrees rest (db s).buckets ∧ Buckets.OwnedBy live (db s).buckets) :
    D.Safe t (fun _ s => K s ∧ Buckets.OwnedBy live (db s).buckets)
      (Linksurf.assignFree ready targets rest b) s := by
  have hdone : ∀ {s : S} {b : Balance}, K s ∧ Buckets.OwnedBy live (db s).buckets →
      D.Safe t (fun _ s => K s ∧ Buckets.OwnedBy live (db s).buckets) (.ret b : Async Balance) s :=
    fun hs => Discipline.safe_ret (h.stable_with (fun _ _ ho hk => ho.kept hk)) hs (fun _ _ hs => hs)
  induction rest generalizing s b with
  | nil => exact hdone ⟨hs.1, hs.2.2⟩
  | cons bucket rest ih =>
    obtain ⟨-, hn'⟩ := List.nodup_cons.mp hn
    rw [Linksurf.assignFree]
    split
    · exact ih hn' ⟨hs.1, fun r hr => hs.2.1 r (List.mem_cons_of_mem _ hr), hs.2.2⟩
    · rename_i hfree
      split
      · exact hdone ⟨hs.1, hs.2.2⟩
      · rename_i destination hreceiver
        have hready := (receiver_spec hreceiver).1
        refine h.await (A := fun c => Buckets.Agrees (bucket :: rest) c ∧ Buckets.OwnedBy live c)
          (fun _ _ hA hk => ⟨hA.1.kept hk, hA.2.kept hk⟩) hs
          (fun c hA => ⟨fun r hr => .inl ?_, ?_, by decide⟩) ?_
        · obtain ⟨r', hr', hsame⟩ := hA.1 bucket List.mem_cons_self
          obtain rfl := Option.some.inj (hr'.symm.trans hr)
          rw [hsame.state_iff not_held_unassigned]
          exact not_not.mp hfree
        · rintro d hd
          obtain rfl := Option.some.inj hd
          exact hready
        · intro s r s' hK hA he
          simp only [Database.execute, Option.some.injEq, Prod.mk.injEq] at he
          refine ih hn' ⟨hK, ?_⟩
          rw [← he.2]
          refine ⟨hA.1.tail hn _ _, hA.2.updateOne (fun x _ => .inr (fun owner ho => ?_))⟩
          obtain rfl := Option.some.inj ho
          exact h.ready _ hready

/-- Handoffs are marked towards ready workers and change no owner. -/
theorem Knows.moveBuckets (h : Knows D t db live ready K) {targets : WorkerId → Nat} {maxMoves : Nat}
    {state : BucketState} (rest : List BucketModel) {s : S} {b : Balance}
    (hs : K s ∧ Buckets.OwnedBy live (db s).buckets) :
    D.Safe t (fun _ s => K s ∧ Buckets.OwnedBy live (db s).buckets)
      (Linksurf.moveBuckets ready targets maxMoves state rest b) s := by
  have hkept : ∀ c c' : Buckets, Buckets.OwnedBy live c → c.Kept c' → Buckets.OwnedBy live c' :=
    fun _ _ ho hk => ho.kept hk
  have hdone : ∀ {s : S} {b : Option Balance}, K s ∧ Buckets.OwnedBy live (db s).buckets →
      D.Safe t (fun _ s => K s ∧ Buckets.OwnedBy live (db s).buckets) (.ret b : Async (Option Balance)) s :=
    fun hs => Discipline.safe_ret (h.stable_with hkept) hs (fun _ _ hs => hs)
  induction rest generalizing s b with
  | nil => exact hdone hs
  | cons bucket rest ih =>
    rw [Linksurf.moveBuckets]
    split
    · exact hdone hs
    · split
      · exact hdone hs
      · exact ih hs
      · split
        · exact ih hs
        · split
          · exact hdone hs
          · rename_i destination hreceiver
            refine h.await hkept hs (fun _ _ => (receiver_spec hreceiver).1) ?_
            intro s r s' hK ho he
            simp only [Database.execute, Option.some.injEq, Prod.mk.injEq] at he
            have ho' : Buckets.OwnedBy live (db s').buckets := by
              rw [← he.2]
              exact ho.updateOne (fun x _ => .inl rfl)
            change D.Safe t _ (if r then _ else _) s'
            split <;> exact ih ⟨hK, ho'⟩

/-- `moveAll` is two such loops. -/
theorem Knows.moveAll (h : Knows D t db live ready K) (moves : BucketMoves) {plan : Plan}
    (hplan : plan.readyIds = ready) (buckets : List BucketModel) {s : S}
    (hs : K s ∧ Buckets.OwnedBy live (db s).buckets) :
    D.Safe t (fun _ s => K s ∧ Buckets.OwnedBy live (db s).buckets) (Linksurf.moveAll moves plan buckets) s := by
  have hdone : ∀ {s : S} {b : Option Balance}, K s ∧ Buckets.OwnedBy live (db s).buckets →
      D.Safe t (fun _ s => K s ∧ Buckets.OwnedBy live (db s).buckets) (.ret b : Async (Option Balance)) s :=
    fun hs => Discipline.safe_ret (h.stable_with (fun _ _ ho hk => ho.kept hk)) hs (fun _ _ hs => hs)
  unfold Linksurf.moveAll
  rw [hplan]
  refine Discipline.safe_bind (h.moveBuckets buckets hs) (fun result s _ hs => ?_)
  split
  · exact hdone hs
  · split
    · exact hdone hs
    · exact h.moveBuckets buckets hs

end Contract

/-! ## A whole pass -/

section Pass

variable {T S : Type} {D : Discipline T S Call Call.Reply} {t : T} {db : S → Database}

theorem Knows.allocateAmong {workers : List WorkerModel} {K : S → Prop}
    (h : Knows D t db (liveIds workers) (readyIds workers) K) {s : S} (hs : K s) :
    D.Safe t (fun plan s => (K s ∧ Buckets.OwnedBy (liveIds workers) (db s).buckets) ∧
        ∀ p, plan = some p → p.readyIds = readyIds workers ∧ readyIds workers ≠ [])
      (Linksurf.allocateAmong workers) s := by
  refine h.await (A := fun _ => True) (fun _ _ _ _ => trivial) ⟨hs, trivial⟩ (fun _ _ => trivial) ?_
  intro s buckets s' hK _ he
  obtain ⟨rfl, hdb⟩ : (db s).buckets.records = buckets ∧ db s = db s' := by simpa [Database.execute] using he
  rw [hdb]
  refine Discipline.safe_bind (h.reclaim _ (Buckets.nodup _)
    ⟨hK, Buckets.agrees_records _, fun id r hr => .inr ?_⟩) (fun _ s _ hs => ?_)
  · rw [← Buckets.get?_id hr]
    exact List.mem_map_of_mem (Buckets.get?_mem hr)
  · split
    · refine Discipline.safe_ret (h.stable_with (fun _ _ ho hk => Buckets.OwnedBy.kept ho hk)) hs (fun s _ hs => ?_)
      exact ⟨hs, fun p hp => by cases hp⟩
    · rename_i hready
      refine h.await (fun _ _ ho hk => Buckets.OwnedBy.kept ho hk) hs (fun _ _ => trivial) ?_
      intro s buckets s' hK ho he
      obtain ⟨rfl, hdb⟩ : (db s).buckets.records = buckets ∧ db s = db s' := by simpa [Database.execute] using he
      rw [hdb] at ho ⊢
      refine Discipline.safe_bind (h.assignFree _ _ (Buckets.nodup _) ⟨hK, Buckets.agrees_records _, ho⟩)
        (fun b s _ hs => ?_)
      refine Discipline.safe_ret (h.stable_with (fun _ _ ho hk => Buckets.OwnedBy.kept ho hk)) hs (fun s _ hs => ?_)
      exact ⟨hs, fun p hp => by rw [← Option.some.inj hp]; exact ⟨rfl, hready⟩⟩

/-- A pass that knows the workers is safe when its promotions are. -/
theorem Knows.pass {workers : List WorkerModel} {K : S → Prop}
    (h : Knows D t db (liveIds workers) (readyIds workers) K) (moves : BucketMoves) (self : WorkerId)
    (hpromote : ∀ buckets s, D.inv s → K s ∧ Buckets.OwnedBy (liveIds workers) (db s).buckets →
      readyIds workers ≠ [] → D.Safe t (fun _ _ => True) (promoteLocal self buckets) s) {s : S} (hs : K s) :
    D.Safe t (fun _ _ => True) (Linksurf.allocateAmong workers >>= rebalance moves self) s := by
  have hdone : ∀ {s : S} (r : Option Unit), D.Safe t (fun _ _ => True) (.ret r : Async (Option Unit)) s :=
    fun r => Discipline.safe_ret (Discipline.stable_const True) trivial (fun _ _ _ => trivial)
  refine Discipline.safe_bind (h.allocateAmong hs) ?_
  rintro (_ | plan) s - ⟨hs, hplan⟩
  · exact hdone (some ())
  · obtain ⟨hids, hready⟩ := hplan plan rfl
    refine h.await (fun _ _ ho hk => Buckets.OwnedBy.kept ho hk) hs (fun _ _ => trivial) ?_
    intro s buckets s' hK ho he
    obtain ⟨rfl, hdb⟩ : (db s).buckets.records = buckets ∧ db s = db s' := by simpa [Database.execute] using he
    rw [hdb] at ho ⊢
    refine Discipline.safe_bind (h.moveAll moves hids _ ⟨hK, ho⟩) (fun result s hinv hs => ?_)
    split
    · exact hdone none
    · exact Discipline.safe_bind (hpromote _ s hinv hs hready) (fun _ _ _ _ => hdone (some ()))

end Pass

end Linksurf
