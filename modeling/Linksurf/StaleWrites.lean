import Linksurf.ClusterSteps

/-!
# Assignments on stale decisions

`set_bucket_assignment` looks at nothing but the id, so only the lock keeps the
record as the pass read it. While no TTL runs out on a running holder and nobody
renews a lease that ran out, every assignment of a pass lands on a bucket that is
free or owned by a worker that is not live. A TTL that does run out lets a pass
overwrite a live owner.
-/
namespace Linksurf

open Coroutine Execution Pool

/-- A worker's buckets are free for others once its lease has run out. -/
def leaseRegime (lib : Externals) : Regime lib where
  gone s w := s.Known w ∧ ¬ s.Live w
  yielded _ _ := True
  uses _ _ _ := False
  inv := Shared.Sane
  sane h := h
  yielded_of_gone _ := trivial
  live_or_gone {s w} _ hw := by
    by_cases hl : s.Live w
    · exact .inl hl
    · exact .inr ⟨hw, hl⟩
  drained_unused _ _ _ h := h
  gone_frame {s s' w} h hp hw hn := by
    refine ⟨?_, fun hl => h.2 ?_⟩
    · rw [Shared.Known, hp]; exact h.1
    · rw [Shared.Live, hw, hn] at hl; exact hl
  yielded_frame _ _ _ _ := trivial
  uses_frame h _ := h

/-- No running holder loses the lock, and no lease is renewed late. -/
def Timely (c : Cluster) : ClusterAction → Prop
  | .lockExpires => ∀ t, c.shared.lock = some t → c.threads t = none
  | .upsert worker _ _ => (c.shared.processes worker).stage = .new ∨ c.shared.Live worker
  | _ => True

variable {lib : Externals} {moves : BucketMoves} {c c' : Cluster} {action : ClusterAction} {t : ThreadId}
  {s s' : Shared}

theorem lease_execute (h : s.Sane) {call : Call} {reply : call.Reply} (hdebt : (leaseRegime lib).Debt t call s)
    (hc : call.Coherent) (he : s.execute lib t call = some (reply, s')) : (leaseRegime lib).Respects s s' where
  inv := Regime.sane_execute h hdebt hc he
  gone w hw := by
    refine ⟨(Regime.known_execute he).mpr hw.1, fun hl => hw.2 ?_⟩
    obtain ⟨worker, hmem, hid, hlive⟩ := hl
    rw [Regime.now_execute he] at hlive
    exact ⟨worker, Regime.workers_execute he worker hmem, hid, hlive⟩
  yielded _ _ := trivial

/-- Only an upsert in time makes a worker live. -/
theorem live_of_timely (h : Cluster.Changed lib c.shared action s') (htimely : Timely c action) {w : WorkerId}
    (hw : c.shared.Known w) (hl : s'.Live w) : c.shared.Live w := by
  obtain ⟨worker, hmem, hid, hlive⟩ := hl
  cases h with
  | tick h => exact ⟨worker, hmem, hid, lt_of_le_of_lt h hlive⟩
  | upsert =>
    rename_i x _ _ _
    by_cases hxw : w = x
    · subst hxw
      exact htimely.resolve_left hw
    · rcases Workers.mem_upsertWorker.mp hmem with rfl | ⟨hm, -⟩
      · exact absurd hid.symm hxw
      · exact ⟨worker, hm, hid, hlive⟩
  | _ => exact ⟨worker, hmem, hid, hlive⟩

theorem lease_step (h : (leaseRegime lib).contract.Holds c) (htimely : Timely c action)
    (hstep : c.step lib moves action = some c') : (leaseRegime lib).contract.Holds c' := by
  refine Regime.holds_step h hstep (fun ha => by subst ha; exact htimely) (fun _ _ => trivial) ?_ ?_
  · intro t call reply s' _ hdebt hc he
    exact lease_execute h.inv hdebt hc he
  · intro hnot
    have hchanged := Cluster.step_changed hstep hnot
    have ho := Regime.outside_of_changed hchanged
    refine ⟨⟨Regime.sane_outside h.inv ho, fun w hw => ⟨ho.known w hw.1, fun hl => hw.2 ?_⟩, fun _ _ => trivial⟩,
      fun _ _ h => h⟩
    exact live_of_timely hchanged htimely hw.1 hl

theorem lease_of_reaches (h : Reaches (Cluster.step lib moves) Timely .initial c) :
    (leaseRegime lib).contract.Holds c := by
  refine h.invariant (leaseRegime lib).contract.Holds ⟨⟨?_, ?_, ?_⟩, ?_⟩ (fun _ _ _ hc hp hs => lease_step hc hp hs)
  · intro r hr; cases hr
  · intro w hw; cases hw
  · intro r hr; cases hr
  · intro t body hb; cases hb

/-! ## Who may lose a bucket -/

/-- Under the contract a call takes a bucket from a live worker only as that
worker's own promotion or release. -/
theorem lost_execute (hs : s.Sane) {call : Call} {reply : call.Reply} (hdebt : (leaseRegime lib).Debt t call s)
    (hc : call.Coherent) (he : s.execute lib t call = some (reply, s')) {b : Nat} {w : WorkerId}
    {r r' : BucketModel} (hget : s.db.buckets.get? b = some r) (ho : r.ownerId = some w) (hl : s.Live w)
    (hget' : s'.db.buckets.get? b = some r') (hlost : r'.ownerId ≠ some w) :
    (∃ successor, t = ⟨w, .coordination⟩ ∧ r.state = .draining ∧ r.successorId = some successor ∧
      r'.ownerId = some successor) ∨ (t = ⟨w, .shutdown⟩ ∧ r'.ownerId = none) := by
  have hsame : ∀ {x}, s'.db.buckets.get? b = some x → x.ownerId = r.ownerId → False := by
    intro x hx hxo
    obtain rfl := Option.some.inj (hget'.symm.trans hx)
    exact hlost (hxo.trans ho)
  obtain ⟨tw, tr⟩ := t
  rcases Regime.execute_cases he with ⟨lock, rfl⟩ | ⟨db, hdb, rfl⟩ | ⟨assignments, -, rfl⟩
  · exact (hsame hget rfl).elim
  · cases call with
    | setBucketAssignment bucket owner state =>
      cases hdb
      by_cases hb : b = bucket
      · subst hb
        have hr := hdebt.2.2 r hget
        cases tr with
        | coordination =>
          rcases hr with hfree | ⟨o, ho', hgone⟩
          · rw [(hs.wellFormed r (Buckets.get?_mem hget)).unassigned.mp hfree] at ho
            cases ho
          · obtain rfl := Option.some.inj (ho'.symm.trans ho)
            exact absurd hl hgone.2
        | shutdown =>
          obtain rfl := Option.some.inj (hr.1.symm.trans ho)
          have hget₁ : some { r with id := b, ownerId := owner, successorId := none, state, revision := r.revision + 1 } =
              some r' := by rw [← hget']; simp [Buckets.setBucketAssignment, Buckets.get?_updateOne_same, hget]
          refine .inr ⟨rfl, ?_⟩
          rw [← Option.some.inj hget₁]
          exact hr.2.1
      · exact (hsame ((Buckets.get?_updateOne_other _ hb _ _).trans hget) rfl).elim
    | markBucketDraining bucket owner successor =>
      cases hdb
      refine (hsame ((Buckets.get?_updateOne _ _ _ _ _).trans (congrArg _ hget)) ?_).elim
      unfold Buckets.rewriteOne
      split <;> rfl
    | promoteDrainedBucket bucket owner successor =>
      cases hdb
      have hget₁ : (some r).map (Buckets.rewriteOne bucket (Buckets.canPromote owner successor) (fun r =>
          { r with ownerId := some successor, successorId := none, state := .idle, revision := r.revision + 1 })) =
          some r' := by rw [← hget, ← hget']; exact (Buckets.get?_updateOne _ _ _ _ _).symm
      rw [Option.map_some, Buckets.rewriteOne] at hget₁
      split at hget₁
      · rename_i hmatch
        obtain ⟨hown, hsuccessor, hdraining⟩ := Buckets.canPromote_iff.mp hmatch.2
        obtain rfl := Option.some.inj (hown.symm.trans ho)
        refine .inl ⟨successor, ?_, hdraining, hsuccessor, by rw [← Option.some.inj hget₁]⟩
        rw [hdebt.2.2.1, show tr = .coordination from hdebt.2.1]
      · obtain rfl := Option.some.inj hget₁
        exact absurd ho hlost
    | syncOwnedBucketStates worker states =>
      cases hdb
      obtain ⟨x, hx, hx'⟩ := (Buckets.rel_syncOwnedBucketStates worker s.db.buckets hc).forth hget
      exact (hsame hx hx'.owner).elim
    | _ => cases hdb <;> exact (hsame hget rfl).elim
  · exact (hsame hget rfl).elim

/-- In timely runs every assignment of a pass lands on a bucket that is free or
whose owner is not live, and a live worker gives a bucket away only by promoting
the successor of its own handoff, or up by releasing it. -/
theorem assignments_not_stale (lib : Externals) (moves : BucketMoves) (c : Cluster)
    (h : Reaches (Cluster.step lib moves) Timely .initial c) :
    (∀ worker bucket owner state,
      c.awaits ⟨worker, .coordination⟩ = some (.setBucketAssignment bucket owner state) →
      ∀ r, c.shared.db.buckets.get? bucket = some r →
        r.state = .unassigned ∨ ∃ o, r.ownerId = some o ∧ ¬ c.shared.Live o) ∧
    ∀ action c', Timely c action → c.step lib moves action = some c' →
      ∀ bucket worker r r', c.shared.db.buckets.get? bucket = some r → r.ownerId = some worker →
        c.shared.Live worker → c'.shared.db.buckets.get? bucket = some r' → r'.ownerId ≠ some worker →
        (∃ successor, action = .run ⟨worker, .coordination⟩ ∧ r.state = .draining ∧
          r.successorId = some successor ∧ r'.ownerId = some successor) ∨
        (action = .run ⟨worker, .shutdown⟩ ∧ r'.ownerId = none) := by
  have hc := lease_of_reaches h
  constructor
  · intro worker bucket owner state hawait r hr
    obtain ⟨k, hk⟩ := Cluster.awaits_eq hawait
    exact ((hc.pre hk).1.2.2 r hr).imp_right (fun ⟨o, ho, hgone⟩ => ⟨o, ho, hgone.2⟩)
  · intro action c' _ hstep bucket worker r r' hget ho hl hget' hlost
    by_cases hrun : ∃ t, action = .run t
    · obtain ⟨t, rfl⟩ := hrun
      rcases State.run_cases hstep with ⟨a, -, rfl⟩ | ⟨call, k, reply, s', hk, he, rfl⟩
      · obtain rfl := Option.some.inj (hget.symm.trans hget')
        exact absurd ho hlost
      · have hdebt := hc.pre hk
        simpa using lost_execute hc.inv hdebt.1 hdebt.2 he hget ho hl hget' hlost
    · have ho' := Regime.outside_of_changed (Cluster.step_changed hstep (fun t ht => hrun ⟨t, ht⟩))
      obtain ⟨x, hx, hsame⟩ := ho'.kept.forth bucket r hget
      obtain rfl := Option.some.inj (hx.symm.trans hget')
      exact absurd (hsame.owner.trans ho) hlost

/-- A test that implies `Timely`: the lock never expires, and workers register once. -/
def leasesKept (c : Cluster) : ClusterAction → Bool
  | .lockExpires => false
  | .upsert worker _ _ => (c.shared.processes worker).stage = .new
  | _ => true

theorem timely_of_leasesKept (c : Cluster) (action : ClusterAction) (h : leasesKept c action = true) :
    Timely c action := by
  cases action with
  | lockExpires => cases h
  | upsert worker status heartbeatAt => exact .inl (by simpa [leasesKept] using h)
  | _ => trivial

/-- The only worker is about to take the next free bucket. -/
theorem assignments_not_stale_assigning : ∃ c, Reaches (Cluster.step site .all) Timely .initial c ∧
    c.awaits ⟨"a", .coordination⟩ = some (.setBucketAssignment 2 (some "a") .idle) ∧
    ∀ r, c.shared.db.buckets.get? 2 = some r →
      r.state = .unassigned ∨ ∃ o, r.ownerId = some o ∧ ¬ c.shared.Live o := by
  obtain ⟨c, hc, hawait⟩ := exists_reaches (P := Timely) (Cluster.step site .all) .initial
    leasesKept timely_of_leasesKept
    ([.ensure 1, .ensure 2, .upsert "a" .ready 0, .coordinate "a"] ++
      List.replicate 10 (.run ⟨"a", .coordination⟩))
    (fun c => c.awaits ⟨"a", .coordination⟩ = some (.setBucketAssignment 2 (some "a") .idle)) (by decide +kernel)
  have hawait := of_decide_eq_true hawait
  exact ⟨c, hc, hawait, (assignments_not_stale site .all c hc).1 "a" 2 (some "a") .idle hawait⟩

/-- The lock of `a` runs out between two of its writes; meanwhile `b` becomes
the owner of the bucket that `a` assigns next. -/
theorem live_owner_overwritten : ¬ ∀ c, Reaches (Cluster.step site .all) Free .initial c →
    ∀ worker bucket owner state,
      c.awaits ⟨worker, .coordination⟩ = some (.setBucketAssignment bucket owner state) →
      ∀ r, c.shared.db.buckets.get? bucket = some r →
        r.state = .unassigned ∨ ∃ o, r.ownerId = some o ∧ ¬ c.shared.Live o := by
  intro h
  obtain ⟨c, hc, htest⟩ := exists_reaches_free (Cluster.step site .all) .initial
    ((List.range' 1 BUCKET_COUNT).map .ensure ++ [.upsert "a" .ready 0, .coordinate "a"] ++
      List.replicate 10 (.run ⟨"a", .coordination⟩) ++
      [.tick 31, .lockExpires, .upsert "b" .ready 31, .coordinate "b"] ++
      List.replicate 10 (.run ⟨"b", .coordination⟩))
    (fun c => c.awaits ⟨"a", .coordination⟩ = some (.setBucketAssignment 2 (some "a") .idle) ∧
      c.shared.db.buckets.get? 2 = some ⟨2, .idle, some "b", none, 1⟩ ∧
      (c.shared.db.workers.records.any (fun w => w.id = "b" ∧ c.shared.now < w.expiresAt))) (by decide +kernel)
  obtain ⟨hawait, hget, hlive⟩ := of_decide_eq_true htest
  obtain ⟨w, hw, hb⟩ := List.any_eq_true.mp hlive
  rcases h c hc "a" 2 _ _ hawait _ hget with hfree | ⟨o, ho, hgone⟩
  · cases hfree
  · obtain rfl := Option.some.inj ho
    exact hgone ⟨w, hw, of_decide_eq_true hb⟩

end Linksurf
