import Linksurf.ClusterContract
import Linksurf.Coordinators

/-!
# One step among the workers

Paying its debts, a coroutine leaves the others what they rely on. So does
everything that happens to the workers from outside, as long as nobody loses
the lock while holding it.
-/
namespace Linksurf

open Coroutine Pool

namespace Regime

variable {lib : Externals} {G : Regime lib} {t u : ThreadId} {s s' : Shared}

/-! ## Calls -/

/-- A call changes at most the lock, or acts on the database, or tells the
caller's back queue of its buckets. -/
theorem execute_cases {call : Call} {reply : call.Reply} (he : s.execute lib t call = some (reply, s')) :
    (∃ lock, s' = { s with lock }) ∨ (∃ db, s.db.execute call = some (reply, db) ∧ s' = { s with db }) ∨
    ∃ assignments, call = .setBuckets assignments ∧ s' = s.setNode t.worker
      { (s.processes t.worker).node with queue := (s.processes t.worker).node.queue.setBuckets assignments } := by
  cases call with
  | acquireLock | releaseLock | bucketStates | drainedBuckets =>
    simp only [Shared.execute] at he
    split at he <;> cases he <;> exact .inl ⟨_, rfl⟩
  | now | backQueueReady => cases he; exact .inl ⟨_, rfl⟩
  | setBuckets assignments => cases he; exact .inr (.inr ⟨assignments, rfl, rfl⟩)
  | _ => cases he; exact .inr (.inl ⟨_, rfl, rfl⟩)

/-- Only `setBuckets` touches a process, the caller's own. -/
theorem process_execute {call : Call} {reply : call.Reply} (he : s.execute lib t call = some (reply, s'))
    (w : WorkerId) : s'.processes w = s.processes w ∨
      ∃ assignments, call = .setBuckets assignments ∧ w = t.worker ∧ s'.db = s.db ∧
        s'.processes w = { s.processes w with node :=
          { (s.processes w).node with queue := (s.processes w).node.queue.setBuckets assignments } } := by
  rcases execute_cases he with ⟨lock, rfl⟩ | ⟨db, -, rfl⟩ | ⟨assignments, rfl, rfl⟩
  · exact .inl rfl
  · exact .inl rfl
  · by_cases hw : w = t.worker
    · subst hw
      exact .inr ⟨assignments, rfl, rfl, rfl, by simp [Shared.setNode, Shared.setProcess]⟩
    · exact .inl (by simp [Shared.setNode, Shared.setProcess, hw])

theorem stage_execute {call : Call} {reply : call.Reply} (he : s.execute lib t call = some (reply, s'))
    (w : WorkerId) : (s'.processes w).stage = (s.processes w).stage := by
  rcases process_execute he w with hp | ⟨_, -, -, -, hp⟩ <;> rw [hp]

theorem known_execute {call : Call} {reply : call.Reply} (he : s.execute lib t call = some (reply, s'))
    {w : WorkerId} : s'.Known w ↔ s.Known w := by
  rw [Shared.Known, Shared.Known, stage_execute he w]

theorem now_execute {call : Call} {reply : call.Reply} (he : s.execute lib t call = some (reply, s')) :
    s'.now = s.now := by
  rcases execute_cases he with ⟨lock, rfl⟩ | ⟨db, -, rfl⟩ | ⟨assignments, -, rfl⟩ <;> rfl

/-- A call that is not for the database leaves it alone. -/
theorem db_execute {call : Call} {reply : call.Reply} (he : s.execute lib t call = some (reply, s')) :
    s'.db = s.db ∨ s.db.execute call = some (reply, s'.db) := by
  rcases execute_cases he with ⟨lock, rfl⟩ | ⟨db, hdb, rfl⟩ | ⟨assignments, -, rfl⟩
  · exact .inl rfl
  · exact .inr hdb
  · exact .inl rfl

theorem mem_updateOne_cases {c : Buckets} {id : Nat} {filter : BucketModel → Bool}
    {update : BucketModel → BucketModel} {x : BucketModel} (h : x ∈ (c.updateOne id filter update).records) :
    ∃ r ∈ c.records, x = r ∨ (r.id = id ∧ filter r = true ∧ x = { update r with id }) := by
  obtain ⟨r, hr, rfl⟩ := List.mem_map.mp h
  refine ⟨r, hr, ?_⟩
  unfold Buckets.rewriteOne
  split
  · rename_i hmatch; exact .inr ⟨hmatch.1, hmatch.2, rfl⟩
  · exact .inl rfl

/-- The workers a record names after a call were named before or are known. -/
theorem names_execute {call : Call} {reply : call.Reply} (hdebt : G.Debt t call s) (hc : call.Coherent)
    (he : s.execute lib t call = some (reply, s')) {x : BucketModel} (hx : x ∈ s'.db.buckets.records)
    {w : WorkerId} (hw : x.ownerId = some w ∨ x.successorId = some w) :
    (∃ r ∈ s.db.buckets.records, r.ownerId = some w ∨ r.successorId = some w) ∨ s.Known w := by
  rcases execute_cases he with ⟨lock, rfl⟩ | ⟨db, hdb, rfl⟩ | ⟨assignments, -, rfl⟩
  · exact .inl ⟨x, hx, hw⟩
  · cases call with
    | setBucketAssignment bucket owner state =>
      cases hdb
      obtain ⟨r, hr, rfl | ⟨-, -, rfl⟩⟩ := mem_updateOne_cases hx
      · exact .inl ⟨x, hr, hw⟩
      · exact hw.elim (fun ho => .inr (hdebt.2.1 w ho)) (fun hs => by cases hs)
    | markBucketDraining bucket owner successor =>
      cases hdb
      obtain ⟨r, hr, rfl | ⟨-, -, rfl⟩⟩ := mem_updateOne_cases hx
      · exact .inl ⟨x, hr, hw⟩
      · rcases hw with ho | hs
        · exact .inl ⟨r, hr, .inl ho⟩
        · obtain rfl := Option.some.inj hs
          exact .inr hdebt.2
    | promoteDrainedBucket bucket owner successor =>
      cases hdb
      obtain ⟨r, hr, rfl | ⟨-, hf, rfl⟩⟩ := mem_updateOne_cases hx
      · exact .inl ⟨x, hr, hw⟩
      · rcases hw with ho | hs
        · obtain rfl := Option.some.inj ho
          exact .inl ⟨r, hr, .inr (Buckets.canPromote_iff.mp hf).2.1⟩
        · cases hs
    | syncOwnedBucketStates worker states =>
      cases hdb
      obtain ⟨r, hr, hs⟩ := (Buckets.rel_syncOwnedBucketStates worker s.db.buckets hc).back (Buckets.get?_of_mem hx)
      exact .inl ⟨r, Buckets.get?_mem hr, by rwa [← hs.owner, ← hs.successor]⟩
    | _ => cases hdb <;> exact .inl ⟨x, hx, hw⟩
  · exact .inl ⟨x, hx, hw⟩

theorem workers_execute {call : Call} {reply : call.Reply} (he : s.execute lib t call = some (reply, s')) :
    ∀ w ∈ s'.db.workers.records, w ∈ s.db.workers.records := by
  rcases execute_cases he with ⟨lock, rfl⟩ | ⟨db, hdb, rfl⟩ | ⟨assignments, -, rfl⟩
  · exact fun _ hw => hw
  · cases call with
    | deleteExpiredWorkers | deleteWorker => cases hdb; exact fun _ hw => List.mem_of_mem_filter hw
    | _ => cases hdb <;> exact fun _ hw => hw
  · exact fun _ hw => hw

theorem sane_execute (h : s.Sane) {call : Call} {reply : call.Reply} (hdebt : G.Debt t call s)
    (hc : call.Coherent) (he : s.execute lib t call = some (reply, s')) : s'.Sane where
  wellFormed := by
    rcases db_execute he with hdb | hdb
    · rw [hdb]; exact h.wellFormed
    · exact wellFormed_of_rel (execute_written hc hdb) h.wellFormed
  workers w hw := (known_execute he).mpr (h.workers w (workers_execute he w hw))
  names x hx w hw := by
    refine (known_execute he).mpr ((names_execute hdebt hc he hx hw).elim ?_ id)
    rintro ⟨r, hr, hr'⟩
    exact h.names r hr w hr'

/-! ## What the others rely on -/

theorem lock_execute (hut : u ≠ t) {call : Call} {reply : call.Reply}
    (he : s.execute lib t call = some (reply, s')) (hlock : s.lock = some u) : s'.lock = some u := by
  cases call with
  | acquireLock => simp [Shared.execute, hlock] at he
  | releaseLock =>
    simp only [Shared.execute] at he
    split at he
    · rename_i ht
      exact absurd (Option.some.inj (hlock.symm.trans ht)) hut
    · cases he; exact hlock
  | bucketStates | drainedBuckets =>
    simp only [Shared.execute] at he
    split at he <;> cases he
    exact hlock
  | _ => cases he; exact hlock

theorem kept_execute (hut : u ≠ t) {call : Call} {reply : call.Reply} (hdebt : G.Debt t call s)
    (hc : call.Coherent) (he : s.execute lib t call = some (reply, s')) (hlock : s.lock = some u) :
    s.db.buckets.Kept s'.db.buckets := by
  have hnot : s.lock ≠ some t := fun h => hut (Option.some.inj (hlock.symm.trans h))
  rcases execute_cases he with ⟨lock, rfl⟩ | ⟨db, hdb, rfl⟩ | ⟨assignments, -, rfl⟩
  · exact .refl _
  · cases call with
    | setBucketAssignment | markBucketDraining | promoteDrainedBucket => exact absurd hdebt.1 hnot
    | syncOwnedBucketStates worker states =>
      cases hdb
      exact Buckets.kept_of_rel (Buckets.rel_syncOwnedBucketStates worker s.db.buckets hc)
    | _ => cases hdb <;> exact .refl _
  · exact .refl _

/-- Only owners that yielded and owners that no longer use it lose a bucket. -/
theorem owned_execute (hs : s.Sane) {call : Call} {reply : call.Reply} (hdebt : G.Debt t call s)
    (hc : call.Coherent) (he : s.execute lib t call = some (reply, s')) {w : WorkerId} {b : Nat}
    (hw : s.Owns w b) :
    s'.Owns w b ∨ G.yielded s w ∨ (t.worker = w ∧ t.role = .coordination ∧ ¬ G.uses s w b) := by
  rcases execute_cases he with ⟨lock, rfl⟩ | ⟨db, hdb, rfl⟩ | ⟨assignments, -, rfl⟩
  · exact .inl hw
  · obtain ⟨r, hget, ho⟩ := hw
    cases call with
    | setBucketAssignment bucket owner state =>
      cases hdb
      by_cases hb : b = bucket
      · subst hb
        have hr := hdebt.2.2 r hget
        cases hrole : t.role with
        | coordination =>
          rw [hrole] at hr
          rcases hr with hfree | ⟨o, ho', hgone⟩
          · rw [(hs.wellFormed r (Buckets.get?_mem hget)).unassigned.mp hfree] at ho
            cases ho
          · obtain rfl := Option.some.inj (ho'.symm.trans ho)
            exact .inr (.inl (G.yielded_of_gone hgone))
        | shutdown =>
          rw [hrole] at hr
          obtain rfl := Option.some.inj (hr.1.symm.trans ho)
          exact .inr (.inl hr.2.2)
      · exact .inl ⟨r, (Buckets.get?_updateOne_other _ hb _ _).trans hget, ho⟩
    | markBucketDraining bucket owner successor =>
      cases hdb
      refine .inl ⟨_, (Buckets.get?_updateOne _ _ _ _ _).trans (congrArg _ hget), ?_⟩
      unfold Buckets.rewriteOne
      split <;> exact ho
    | promoteDrainedBucket bucket owner successor =>
      cases hdb
      by_cases hmine : b = bucket ∧ t.worker = w
      · obtain ⟨rfl, rfl⟩ := hmine
        exact .inr (.inr ⟨rfl, hdebt.2.1, hdebt.2.2.2⟩)
      · refine .inl ⟨r, (Buckets.get?_updateOne _ _ _ _ _).trans ?_, ho⟩
        rw [hget, Option.map_some, Buckets.rewriteOne, if_neg]
        rintro ⟨hid, hf⟩
        refine hmine ⟨(Buckets.get?_id hget).symm.trans hid, ?_⟩
        exact hdebt.2.2.1.symm.trans (Option.some.inj ((Buckets.canPromote_iff.mp hf).1.symm.trans ho))
    | syncOwnedBucketStates worker states =>
      cases hdb
      obtain ⟨r', hget', hsame⟩ := (Buckets.rel_syncOwnedBucketStates worker s.db.buckets hc).forth hget
      exact .inl ⟨r', hget', hsame.owner.trans ho⟩
    | _ => cases hdb <;> exact .inl ⟨r, hget, ho⟩
  · exact .inl hw

theorem eq_of_coordination (hu : u.role = .coordination) (ht : t.role = .coordination)
    (hworker : u.worker = t.worker) : u = t := by
  cases u
  cases t
  simp_all

theorem rely_execute (hs : s.Sane) (hut : u ≠ t) {call : Call} {reply : call.Reply} (hdebt : G.Debt t call s)
    (hc : call.Coherent) (he : s.execute lib t call = some (reply, s'))
    (hgone : ∀ w, G.gone s w → G.gone s' w) (hyielded : ∀ w, G.yielded s w → G.yielded s' w) :
    G.Rely u s s' where
  lock := lock_execute hut he
  kept := kept_execute hut hdebt hc he
  now := le_of_eq (now_execute he).symm
  known w hw := (known_execute he).mpr hw
  gone := hgone
  yielded := hyielded
  owned hrole b hb := by
    rcases owned_execute hs hdebt hc he hb with ho | hy | ⟨hworker, hcoord, -⟩
    · exact .inl ho
    · exact .inr (hyielded _ hy)
    · exact absurd (eq_of_coordination hrole hcoord hworker.symm) hut
  unused hrole b hb hu := by
    rcases process_execute he u.worker with hp | ⟨assignments, rfl, hworker, -, -⟩
    · exact hb (G.uses_frame hu hp)
    · exact hut (eq_of_coordination hrole hdebt.1 hworker)

/-- The same from a step that is nobody's call. -/
theorem rely_outside (hlock : s.lock = some u → s'.lock = some u)
    (hkept : s.db.buckets.Kept s'.db.buckets) (hnow : s.now ≤ s'.now) (hknown : ∀ w, s.Known w → s'.Known w)
    (hgone : ∀ w, G.gone s w → G.gone s' w) (hyielded : ∀ w, G.yielded s w → G.yielded s' w)
    (hunused : ∀ w b, ¬ G.uses s w b → ¬ G.uses s' w b) : G.Rely u s s' where
  lock := hlock
  kept _ := hkept
  now := hnow
  known := hknown
  gone := hgone
  yielded := hyielded
  owned _ b hb := by
    obtain ⟨r, hr, ho⟩ := hb
    obtain ⟨r', hr', hs⟩ := hkept.forth b r hr
    exact .inl ⟨r', hr', hs.owner.trans ho⟩
  unused _ b hb := hunused _ b hb

/-! ## The contract of the whole cluster -/

variable (G) in
/-- Debts, together with the shape of the calls. -/
def contract : Discipline ThreadId Shared Call Call.Reply :=
  { G.discipline with pre := fun t call s => G.Debt t call s ∧ call.Coherent }

theorem honest_execute {call : Call} {reply : call.Reply} (he : s.execute lib t call = some (reply, s')) :
    call.Honest reply := by
  cases call with
  | bucketStates =>
    simp only [Shared.execute] at he
    split at he <;> cases he
    intro e hin
    obtain ⟨b, -, rfl⟩ := List.mem_map.mp hin
    dsimp only
    split <;> simp
  | _ => exact trivial

theorem contract_of_safe {c : Async Unit} (h : G.discipline.Safe t (fun _ _ => True) c s) (hc : Coherently c) :
    G.contract.Safe t (fun _ _ => True) c s :=
  Discipline.safe_and_issues h hc (fun _ _ _ _ he => honest_execute he) (fun _ _ hd hcall => ⟨hd, hcall⟩)

/-- What the steps of the cluster must leave alone in a regime. -/
structure Respects (G : Regime lib) (s s' : Shared) : Prop where
  inv : G.inv s'
  gone : ∀ w, G.gone s w → G.gone s' w
  yielded : ∀ w, G.yielded s w → G.yielded s' w

/-! ## Steps that are nobody's call -/

/-- What happens to the shared state from outside. -/
structure Outside (s s' : Shared) : Prop where
  kept : s.db.buckets.Kept s'.db.buckets
  records : ∀ r ∈ s'.db.buckets.records, r ∈ s.db.buckets.records ∨ ∃ id, r = { id }
  workers : ∀ w ∈ s'.db.workers.records, w ∈ s.db.workers.records ∨ s'.Known w.id
  now : s.now ≤ s'.now
  known : ∀ w, s.Known w → s'.Known w

theorem outside_of_db {s s' : Shared} (hdb : s'.db = s.db) (hnow : s.now ≤ s'.now)
    (hknown : ∀ w, s.Known w → s'.Known w) : Outside s s' where
  kept := by rw [hdb]; exact .refl _
  records r hr := .inl (hdb ▸ hr)
  workers w hw := .inl (hdb ▸ hw)
  now := hnow
  known := hknown

theorem known_setProcess {s : Shared} {worker : WorkerId} {process : Process}
    (h : s.Known worker → process.stage ≠ .new) : ∀ w, s.Known w → (s.setProcess worker process).Known w := by
  intro w hw
  by_cases he : w = worker
  · subst he; simpa [Shared.Known, Shared.setProcess] using h hw
  · simpa [Shared.Known, Shared.setProcess, he] using hw

theorem outside_of_changed {action : ClusterAction} (h : Cluster.Changed lib s action s') : Outside s s' := by
  cases h with
  | lock => exact outside_of_db rfl (le_refl _) (fun _ hw => hw)
  | tick h => exact outside_of_db rfl h (fun _ hw => hw)
  | ensure =>
    exact ⟨Buckets.kept_ensureOne _ _, fun r hr => (Buckets.mem_insertRecord hr).symm.imp_right (fun h => ⟨_, h⟩),
      fun w hw => .inl hw, le_refl _, fun _ hw => hw⟩
  | upsert =>
    refine ⟨.refl _, fun r hr => .inl hr, fun x hx => ?_, le_refl _, known_setProcess (by simp)⟩
    rcases Workers.mem_upsertWorker.mp hx with rfl | ⟨hx, -⟩
    · exact .inr (by simp [Shared.Known, Cluster.register, Shared.setProcess])
    · exact .inl hx
  | draining | node => exact outside_of_db rfl (le_refl _) (known_setProcess id)
  | stop => exact outside_of_db rfl (le_refl _) (known_setProcess (by simp))

theorem sane_outside {s s' : Shared} (h : s.Sane) (ho : Outside s s') : s'.Sane where
  wellFormed r hr := by
    rcases ho.records r hr with hr | ⟨id, rfl⟩
    · exact h.wellFormed r hr
    · exact ⟨by simp, by simp, by simp⟩
  workers w hw := (ho.workers w hw).elim (fun hw => ho.known _ (h.workers w hw)) id
  names r hr w hw := by
    rcases ho.records r hr with hr | ⟨id, rfl⟩
    · exact ho.known w (h.names r hr w hw)
    · rcases hw with hw | hw <;> cases hw

/-- Threads only end, and whoever still runs keeps the lock. -/
theorem threads_outside {moves : BucketMoves} {c c' : Cluster} {action : ClusterAction}
    (hstep : c.step lib moves action = some c') (hnot : ∀ t, action ≠ .run t)
    (hspawn : ∀ w, action ≠ .coordinate w ∧ action ≠ .release w)
    (hlock : action = .lockExpires → ∀ t, c.shared.lock = some t → c.threads t = none) {u : ThreadId}
    {body : Async Unit} (hu : c'.threads u = some body) :
    c.threads u = some body ∧ (c.shared.lock = some u → c'.shared.lock = some u) := by
  cases action with
  | run t => exact absurd rfl (hnot t)
  | coordinate w => exact absurd rfl (hspawn w).1
  | release w => exact absurd rfl (hspawn w).2
  | tick | upsert =>
    simp only [Cluster.step] at hstep
    split at hstep <;> cases hstep
    exact ⟨hu, id⟩
  | ensure | markDraining => cases hstep; exact ⟨hu, id⟩
  | node w a =>
    simp only [Cluster.step] at hstep
    split at hstep
    · obtain ⟨node, -, rfl⟩ := Option.map_eq_some_iff.mp hstep
      exact ⟨hu, id⟩
    · cases hstep
  | abort t =>
    simp only [Cluster.step] at hstep
    split at hstep <;> cases hstep
    have hut : u ≠ t := by rintro rfl; simp at hu
    refine ⟨by simpa [hut] using hu, fun hl => ?_⟩
    have hne : c.shared.lock ≠ some t := fun e => hut (Option.some.inj (hl.symm.trans e))
    simpa [hne] using hl
  | lockExpires =>
    cases hstep
    refine ⟨hu, fun hl => ?_⟩
    have hnone := hlock rfl u hl
    dsimp only at hu
    rw [hnone] at hu
    cases hu
  | stop w =>
    cases hstep
    dsimp only at hu
    split at hu
    · cases hu
    · exact ⟨hu, id⟩

/-- A step keeps the contract when it respects the regime, nobody loses the
lock while running, and only those who yielded are released. -/
theorem holds_step {moves : BucketMoves} {c c' : Cluster} {action : ClusterAction} (h : G.contract.Holds c)
    (hstep : c.step lib moves action = some c')
    (hlock : action = .lockExpires → ∀ t, c.shared.lock = some t → c.threads t = none)
    (hrelease : ∀ w, action = .release w → G.yielded c.shared w)
    (hrun : ∀ t call reply s', action = .run t → G.Debt t call c.shared → call.Coherent →
      c.shared.execute lib t call = some (reply, s') → G.Respects c.shared s')
    (houtside : (∀ t, action ≠ .run t) → G.Respects c.shared c'.shared ∧
      ∀ w b, ¬ G.uses c.shared w b → ¬ G.uses c'.shared w b) : G.contract.Holds c' := by
  have hother : (∀ t, action ≠ .run t) → (∀ w, action ≠ .coordinate w ∧ action ≠ .release w) →
      G.contract.Holds c' := by
    intro hnot hspawn
    obtain ⟨hr, hunused⟩ := houtside hnot
    have ho := outside_of_changed (Cluster.step_changed hstep hnot)
    refine h.change hr.inv (fun u body hu => .inl ?_)
    obtain ⟨hold, hl⟩ := threads_outside hstep hnot hspawn hlock hu
    exact ⟨hold, rely_outside hl ho.kept ho.now ho.known hr.gone hr.yielded hunused⟩
  cases action with
  | run t =>
    refine h.run (fun _ _ _ he => he) (fun call reply s' hpre he => ?_) hstep
    have hr := hrun t call reply s' rfl hpre.1 hpre.2 he
    exact ⟨hr.inv, fun u hut => rely_execute (G.sane h.inv) hut hpre.1 hpre.2 he hr.gone hr.yielded⟩
  | coordinate w =>
    simp only [Cluster.step] at hstep
    split at hstep <;> cases hstep
    exact h.spawn (contract_of_safe (safe_coordinate (t := ⟨w, .coordination⟩) rfl moves _) coherently_coordinate)
  | release w =>
    simp only [Cluster.step] at hstep
    split at hstep <;> cases hstep
    exact h.spawn (contract_of_safe (safe_release (t := ⟨w, .shutdown⟩) rfl (hrelease w rfl)) coherently_release)
  | _ => exact hother (by simp) (by simp)

end Regime

end Linksurf
