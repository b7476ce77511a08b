import Linksurf.ClusterSteps
import Linksurf.Reliance

/-!
# Buckets are exclusive

A worker relies only on buckets whose records name it: it learns of them by
reading its own records, and gives one away only after finding it drained or
after its whole queue drained. A worker that could still get work keeps its
lease, so nobody reclaims what it relies on.
-/
namespace Linksurf

open Coroutine Execution Pool

/-- The process exited, or its drain is final. -/
def Process.Gone (p : Process) : Prop := p.stage = .stopped ∨ p.node.Quiet

/-- Workers that may get work have a lease and rely on buckets of their own. -/
structure Exclusive (lib : Externals) (s : Shared) : Prop where
  sane : s.Sane
  sound : ∀ w, (s.processes w).node.Sound lib
  vacant : ∀ w, (s.processes w).stage = .stopped → (s.processes w).node.Vacant
  live : ∀ w, (s.processes w).stage = .running → (s.processes w).Gone ∨ s.Live w
  owned : ∀ w b, ¬ (s.processes w).Gone → (s.processes w).node.Relies lib b → s.Owns w b

def exclusiveRegime (lib : Externals) : Regime lib where
  gone s w := (s.processes w).Gone
  yielded s w := (s.processes w).Gone
  uses s w b := ¬ (s.processes w).Gone ∧ (s.processes w).node.Relies lib b
  inv := Exclusive lib
  sane h := h.sane
  yielded_of_gone h := h
  live_or_gone {s w} h hw := by
    cases hstage : (s.processes w).stage with
    | new => exact absurd hstage hw
    | running => exact (h.live w hstage).symm
    | stopped => exact .inr (.inl hstage)
  drained_unused h hfree hb hu := not_relies_of_drained (h.sound _) hfree hb hu.2
  gone_frame h hp _ _ := by rw [hp]; exact h
  yielded_frame h hp _ _ := by rw [hp]; exact h
  uses_frame h hp := by rw [hp] at h; exact h

/-- Running holders keep the lock, workers that may get work keep their leases,
`release` comes after a successful `wait_for_drain`, and stored addresses parse
to their domains. -/
def Orderly (lib : Externals) (c : Cluster) : ClusterAction → Prop
  | .tick now => ∀ w, (c.shared.processes w).stage = .running → ¬ (c.shared.processes w).node.Quiet →
      ∃ r ∈ c.shared.db.workers.records, r.id = w ∧ now < r.expiresAt
  | .upsert _ _ heartbeatAt => c.shared.now < heartbeatAt + WORKER_LEASE_SECONDS
  | .lockExpires => ∀ t, c.shared.lock = some t → c.threads t = none
  | .release worker => .drained ∈ (c.shared.processes worker).node.tasks.pcs
  | .node _ (.run _ reply) => reply.Registered lib
  | _ => True

variable {lib : Externals} {moves : BucketMoves} {c c' : Cluster} {action : ClusterAction} {t : ThreadId}
  {s s' : Shared} {w : WorkerId} {b : Nat}

/-! ## Calls of the protocol -/

theorem sound_execute {call : Call} {reply : call.Reply} (he : s.execute lib t call = some (reply, s'))
    (h : (s.processes w).node.Sound lib) : (s'.processes w).node.Sound lib := by
  rcases Regime.process_execute he w with hp | ⟨assignments, -, -, -, hp⟩
  · rw [hp]; exact h
  · rw [hp]; exact h.step (@step_stepped lib _ _ (.setBuckets assignments) rfl)

theorem gone_execute {call : Call} {reply : call.Reply} (he : s.execute lib t call = some (reply, s'))
    (h : (s.processes w).Gone) : (s'.processes w).Gone := by
  rcases Regime.process_execute he w with hp | ⟨assignments, -, -, -, hp⟩
  · rw [hp]; exact h
  · rw [hp]
    exact h.imp_right (fun hq => hq.step (@step_stepped lib _ _ (.setBuckets assignments) rfl))

/-- Leases in force are only removed by their workers' `release`. -/
theorem live_execute {call : Call} {reply : call.Reply} (hdebt : (exclusiveRegime lib).Debt t call s)
    (he : s.execute lib t call = some (reply, s')) (h : s.Live w) : s'.Live w ∨ (s.processes w).Gone := by
  obtain ⟨r, hr, hid, hlive⟩ := h
  have hkept : r ∈ s'.db.workers.records → s'.Live w := by
    intro hr'
    rw [← Regime.now_execute he] at hlive
    exact ⟨r, hr', hid, hlive⟩
  rcases Regime.execute_cases he with ⟨lock, rfl⟩ | ⟨db, hdb, rfl⟩ | ⟨assignments, -, rfl⟩
  · exact .inl (hkept hr)
  · cases call with
    | deleteExpiredWorkers now =>
      cases hdb
      refine .inl (hkept (List.mem_filter.mpr ⟨hr, ?_⟩))
      simpa using lt_of_le_of_lt (show now ≤ s.now from hdebt) hlive
    | deleteWorker worker =>
      obtain ⟨-, hworker, hgone⟩ := hdebt
      cases hdb
      by_cases hw : w = worker
      · rw [hw, hworker]; exact .inr hgone
      · exact .inl (hkept (List.mem_filter.mpr ⟨hr, by simpa [hid] using hw⟩))
    | _ => cases hdb <;> exact .inl (hkept hr)
  · exact .inl (hkept hr)

theorem exclusive_execute (h : Exclusive lib s) {call : Call} {reply : call.Reply}
    (hdebt : (exclusiveRegime lib).Debt t call s) (hc : call.Coherent)
    (he : s.execute lib t call = some (reply, s')) : (exclusiveRegime lib).Respects s s' where
  gone _ := gone_execute he
  yielded _ := gone_execute he
  inv := {
    sane := Regime.sane_execute h.sane hdebt hc he
    sound := fun w => sound_execute he (h.sound w)
    vacant := fun w hw => by
      rw [Regime.stage_execute he] at hw
      rcases Regime.process_execute he w with hp | ⟨assignments, -, -, -, hp⟩
      · rw [hp]; exact h.vacant w hw
      · rw [hp]; exact h.vacant w hw
    live := fun w hw => by
      rw [Regime.stage_execute he] at hw
      rcases h.live w hw with hg | hl
      · exact .inl (gone_execute he hg)
      · exact (live_execute hdebt he hl).symm.imp_left (gone_execute he)
    owned := fun w b hgone hr => by
      have hgone₀ : ¬ (s.processes w).Gone := fun hg => hgone (gone_execute he hg)
      rcases Regime.process_execute he w with hp | ⟨assignments, rfl, rfl, hdb, hp⟩
      · rw [hp] at hr
        have howns := h.owned w b hgone₀ hr
        rcases Regime.owned_execute h.sane hdebt hc he howns with ho | hy | ⟨rfl, -, hu⟩
        · exact ho
        · exact absurd hy hgone₀
        · exact absurd ⟨hgone₀, hr⟩ hu
      · rw [hp] at hr
        rw [Shared.Owns, hdb]
        rcases relies_setBuckets hr with ⟨r, hin, hheld, rfl⟩ | hr
        · exact (hdebt.2 r hin hheld).resolve_right hgone₀
        · exact h.owned _ b hgone₀ hr }

/-! ## Everything else -/

/-- A process goes on: it stays gone, and relies on no further bucket. -/
structure Process.Follows (lib : Externals) (p p' : Process) : Prop where
  sound : p.node.Sound lib → p'.node.Sound lib
  gone : p.Gone → p'.Gone
  relies : ∀ b, ¬ p'.Gone → p'.node.Relies lib b → p.node.Relies lib b
  vacant : (p.stage = .stopped → p.node.Vacant) → p'.stage = .stopped → p'.node.Vacant

theorem Process.follows_of {p p' : Process} (h : p.node.Follows lib p'.node)
    (hstage : p.stage = .stopped → p'.stage = .stopped)
    (hvacant : p'.stage = .stopped → p.stage = .stopped ∧ (p.node.Vacant → p'.node.Vacant)) : p.Follows lib p' where
  sound := h.sound
  gone := Or.imp hstage h.quiet
  relies b _ := h.relies b
  vacant hp hs := (hvacant hs).2 (hp (hvacant hs).1)

theorem Process.Follows.refl (p : Process) : p.Follows lib p :=
  Process.follows_of (.refl _) id (fun h => ⟨h, id⟩)

theorem follows_setProcess {process : Process} {worker : WorkerId}
    (h : (s.processes worker).Follows lib process) (w : WorkerId) :
    (s.processes w).Follows lib ((s.setProcess worker process).processes w) := by
  by_cases hw : w = worker
  · subst hw; simpa [Shared.setProcess] using h
  · simpa [Shared.setProcess, hw] using Process.Follows.refl _

theorem follows_of_changed (h : Cluster.Changed lib c.shared action s') (hcond : Orderly lib c action)
    (w : WorkerId) : (c.shared.processes w).Follows lib (s'.processes w) := by
  cases h with
  | tick => exact Process.follows_of (follows_now _ _) id (fun h => ⟨h, id⟩)
  | upsert hstage =>
    refine follows_setProcess ?_ w
    exact Process.follows_of (.refl _) (fun h => absurd h hstage) (fun h => by cases h)
  | draining =>
    refine follows_setProcess ?_ w
    exact Process.follows_of (follows_drain lib _) id (fun h => ⟨h, id⟩)
  | node hinternal hstage hstep =>
    refine follows_setProcess ?_ w
    refine Process.follows_of (follows_step hstep ?_ ?_) id (fun h => absurd h hstage)
    · rintro assignments rfl
      cases hinternal
    · rintro task reply rfl
      exact hcond
  | stop =>
    exact follows_setProcess ⟨fun _ => Node.initial_sound, fun _ => .inl rfl, fun _ h => absurd (.inl rfl) h,
      fun _ _ => ⟨rfl, rfl⟩⟩ w
  | lock | ensure => exact .refl _

/-- A process set to another stage than running is not running. -/
theorem running_of_setProcess {worker : WorkerId} {process : Process}
    (hw : ((s.setProcess worker process).processes w).stage = .running)
    (hstage : process.stage = .stopped ∨ process.stage = (s.processes worker).stage) : (s.processes w).stage = .running := by
  by_cases hww : w = worker
  · subst hww
    simp only [Shared.setProcess, Function.update_self] at hw
    rcases hstage with hstage | hstage
    · rw [hstage] at hw; cases hw
    · rwa [← hstage]
  · simpa [Shared.setProcess, hww] using hw

theorem live_of_changed (hs : Exclusive lib c.shared) (h : Cluster.Changed lib c.shared action s')
    (hcond : Orderly lib c action) (w : WorkerId) (hw : (s'.processes w).stage = .running) :
    (s'.processes w).Gone ∨ s'.Live w := by
  have hgone := (follows_of_changed h hcond w).gone
  cases h with
  | tick =>
    by_cases hq : (c.shared.processes w).node.Quiet
    · exact .inl (hgone (.inr hq))
    · exact .inr (hcond w hw hq)
  | upsert =>
    rename_i worker _ _ _
    by_cases hww : w = worker
    · subst hww
      exact .inr ⟨_, Workers.mem_upsertWorker.mpr (.inl rfl), rfl, hcond⟩
    · refine (hs.live w ?_).imp hgone ?_
      · simpa [Cluster.register, Shared.setProcess, hww] using hw
      · rintro ⟨r, hr, hid, hlive⟩
        exact ⟨r, Workers.mem_upsertWorker.mpr (.inr ⟨hr, by rw [hid]; exact hww⟩), hid, hlive⟩
  | draining | node => exact (hs.live w (running_of_setProcess hw (.inr rfl))).imp hgone id
  | stop => exact (hs.live w (running_of_setProcess hw (.inl rfl))).imp hgone id
  | lock | ensure => exact (hs.live w hw).imp hgone id

/-- Records outlive what is not a call, and so does everybody's hold on them. -/
theorem exclusive_outside (h : Exclusive lib c.shared) (hstep : c.step lib moves action = some c')
    (hnot : ∀ t, action ≠ .run t) (hcond : Orderly lib c action) :
    (exclusiveRegime lib).Respects c.shared c'.shared ∧
      ∀ w b, ¬ (exclusiveRegime lib).uses c.shared w b → ¬ (exclusiveRegime lib).uses c'.shared w b := by
  have hchanged := Cluster.step_changed hstep hnot
  have hf := follows_of_changed hchanged hcond
  have ho := Regime.outside_of_changed hchanged
  have hused : ∀ w b, ¬ (c'.shared.processes w).Gone → (c'.shared.processes w).node.Relies lib b →
      ¬ (c.shared.processes w).Gone ∧ (c.shared.processes w).node.Relies lib b :=
    fun w b hgone hr => ⟨fun hg => hgone ((hf w).gone hg), (hf w).relies b hgone hr⟩
  refine ⟨⟨⟨Regime.sane_outside h.sane ho, fun w => (hf w).sound (h.sound w), fun w => (hf w).vacant (h.vacant w),
    live_of_changed h hchanged hcond, fun w b hgone hr => ?_⟩, fun w => (hf w).gone, fun w => (hf w).gone⟩,
    fun w b hu hu' => hu (hused w b hu'.1 hu'.2)⟩
  obtain ⟨hgone₀, hr₀⟩ := hused w b hgone hr
  obtain ⟨r, hget, howner⟩ := h.owned w b hgone₀ hr₀
  obtain ⟨r', hget', hsame⟩ := ho.kept.forth b r hget
  exact ⟨r', hget', hsame.owner.trans howner⟩

theorem exclusive_step (h : (exclusiveRegime lib).contract.Holds c) (hcond : Orderly lib c action)
    (hstep : c.step lib moves action = some c') : (exclusiveRegime lib).contract.Holds c' := by
  refine Regime.holds_step h hstep (fun ha => by subst ha; exact hcond) (fun w ha => ?_) ?_ ?_
  · subst ha
    exact .inr ((h.inv.sound w).drained hcond)
  · exact fun t call reply s' _ hdebt hc he => exclusive_execute h.inv hdebt hc he
  · exact fun hnot => exclusive_outside h.inv hstep hnot hcond

theorem exclusive_of_reaches (h : Reaches (Cluster.step lib moves) (Orderly lib) .initial c) :
    Exclusive lib c.shared := by
  have hinit : Exclusive lib Cluster.initial.shared := by
    refine ⟨⟨?_, ?_, ?_⟩, fun _ => Node.initial_sound, ?_, ?_, ?_⟩
    · intro r hr; cases hr
    · intro w hw; cases hw
    · intro r hr; cases hr
    · intro w hw; cases hw
    · intro w hw; cases hw
    · rintro w b - (hf | ⟨e, he, -⟩ | ⟨pc, hpc, -⟩)
      · cases hf
      · cases he
      · cases hpc
  refine (h.invariant (exclusiveRegime lib).contract.Holds ⟨hinit, ?_⟩
    (fun _ _ _ hc hp hs => exclusive_step hc hp hs)).inv
  intro t body hb
  cases hb

/-- A worker with a queued or outstanding payload of a bucket owns it, hence no
two workers have work for the same bucket. -/
theorem buckets_exclusive (lib : Externals) (moves : BucketMoves) (c : Cluster)
    (h : Reaches (Cluster.step lib moves) (Orderly lib) .initial c) :
    (∀ w b, (c.shared.processes w).node.Works lib b →
      ∃ r, c.shared.db.buckets.get? b = some r ∧ r.ownerId = some w) ∧
    ∀ w w' b, (c.shared.processes w).node.Works lib b → (c.shared.processes w').node.Works lib b → w = w' := by
  have hs := exclusive_of_reaches h
  have howns : ∀ w b, (c.shared.processes w).node.Works lib b → c.shared.Owns w b := by
    intro w b hwork
    refine hs.owned w b (fun hgone => ?_) hwork.relies
    rcases hgone with hstopped | hquiet
    · exact (hs.vacant w hstopped).no_work b hwork
    · exact hwork.elim (hquiet.no_work b).1 (fun ho => ho (hquiet.no_work b).2)
  refine ⟨howns, fun w w' b hwork hwork' => ?_⟩
  obtain ⟨r, hget, ho⟩ := howns w b hwork
  obtain ⟨r', hget', ho'⟩ := howns w' b hwork'
  obtain rfl := Option.some.inj (hget.symm.trans hget')
  exact Option.some.inj (ho.symm.trans ho')

theorem page1_registered : page1.Registered site where
  bucket := by decide
  domain url h := by
    obtain rfl : ⟨"https://site/1", "1", "site", 443⟩ = url := by simpa [site, page1] using h
    rfl

/-- A test that implies `Orderly`: time stands still, nobody is released, leases
are fresh, and page 1 is the only document. -/
def undisturbed (c : Cluster) : ClusterAction → Bool
  | .tick _ | .lockExpires | .release _ => false
  | .upsert _ _ heartbeatAt => c.shared.now < heartbeatAt + WORKER_LEASE_SECONDS
  | .node _ (.run _ (.urls snapshot)) => snapshot = [page1]
  | _ => true

theorem orderly_of_undisturbed (c : Cluster) (action : ClusterAction) (h : undisturbed c action = true) :
    Orderly site c action := by
  cases action with
  | tick | lockExpires | release => cases h
  | upsert => simpa [Orderly, undisturbed] using h
  | node worker a =>
    cases a with
    | run task reply =>
      cases reply with
      | urls snapshot =>
        obtain rfl : snapshot = [page1] := by simpa [undisturbed] using h
        exact fun u hu => List.mem_singleton.mp hu ▸ page1_registered
      | _ => trivial
    | _ => trivial
  | _ => trivial

/-- The only worker was given the only bucket and queued a page of it. -/
theorem buckets_exclusive_site : ∃ c, Reaches (Cluster.step site .all) (Orderly site) .initial c ∧
    (c.shared.processes "a").node.Works site 1 ∧
    ∃ r, c.shared.db.buckets.get? 1 = some r ∧ r.ownerId = some "a" := by
  obtain ⟨c, hc, hqueued⟩ := exists_reaches (P := Orderly site) (Cluster.step site .all) .initial
    undisturbed orderly_of_undisturbed
    ([.ensure 1, .upsert "a" .ready 0, .coordinate "a"] ++ List.replicate 16 (.run ⟨"a", .coordination⟩) ++
      [.node "a" .loop, .node "a" (.run 0 .done), .node "a" (.run 0 .done), .node "a" (.run 0 (.domains [])),
        .node "a" (.run 0 (.urls [page1])), .node "a" (.run 0 (.urls [page1])), .node "a" (.run 0 .done)])
    (fun c => (c.shared.processes "a").node.queue.queues.entries.any (fun e => e.2.any (·.inBucket site 1)))
    (by decide +kernel)
  obtain ⟨e, he, hin⟩ := List.any_eq_true.mp hqueued
  obtain ⟨p, hp, hb⟩ := List.any_eq_true.mp hin
  have hwork : (c.shared.processes "a").node.Works site 1 := .inl ⟨e, he, p, hp, hb⟩
  exact ⟨c, hc, hwork, (buckets_exclusive site .all c hc).1 "a" 1 hwork⟩

end Linksurf
