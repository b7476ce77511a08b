import Linksurf.Exclusivity
import Linksurf.Lifecycle

/-!
# Processes that share the buckets

No two processes have work for one bucket, with nothing assumed about when a
worker is released: `shutdown` sees to it. An application that stops before
its back queue was started releases its worker without a drain; to the others
it is as good as drained.
-/
namespace Linksurf.Application

open Coroutine Monitor Execution Pool

variable {lib : Externals} {moves : BucketMoves} {c d : Course} {courses : WorkerId → Course} {s t : Processes}
  {w u : WorkerId} {x x' : Shared} {p : Process}

/-! ## How the others see a process -/

/-- Stopping without a back queue. -/
def Course.closed (c : Course) : Bool := c.stopping && !c.opened

/-- The process as one that registered and drained. -/
def asDrained (p : Process) : Process :=
  { p with
    stage := if p.stage = .new then .running else p.stage
    node := { p.node with queue := { p.node.queue with draining := true } } }

def seen (courses : WorkerId → Course) (x : Shared) : Shared :=
  { x with processes := fun w => if (courses w).closed then asDrained (x.processes w) else x.processes w }

def view (courses : WorkerId → Course) (cluster : Cluster) : Cluster := ⟨seen courses cluster.shared, cluster.threads⟩

theorem seen_open (h : (courses w).closed = false) : (seen courses x).processes w = x.processes w := by
  simp [seen, h]

theorem seen_closed (h : (courses w).closed = true) : (seen courses x).processes w = asDrained (x.processes w) := by
  simp [seen, h]

theorem stage_seen (h : (x.processes w).stage ≠ .stopped) : ((seen courses x).processes w).stage ≠ .stopped := by
  cases hc : (courses w).closed with
  | false => rwa [seen_open hc]
  | true =>
    rw [seen_closed hc]
    simp only [asDrained]
    split
    · nofun
    · exact h

theorem quiet_asDrained (h : p.node.Vacant) : (asDrained p).node.Quiet where
  draining := rfl
  queues e he := by
    have he : e ∈ p.node.queue.queues.entries := he
    rw [h.1] at he
    cases he
  payloads pc hpc := by
    have hpc : pc ∈ p.node.tasks.pcs := hpc
    rw [h.2] at hpc
    cases hpc
  enqueues pc hpc := by
    have hpc : pc ∈ p.node.tasks.pcs := hpc
    rw [h.2] at hpc
    cases hpc

theorem seen_setProcess (courses : WorkerId → Course) (x : Shared) (w : WorkerId) (p : Process) :
    seen courses (x.setProcess w p) =
      (seen courses x).setProcess w (if (courses w).closed then asDrained p else p) := by
  have hprocesses : (seen courses (x.setProcess w p)).processes =
      ((seen courses x).setProcess w (if (courses w).closed then asDrained p else p)).processes := by
    funext u
    by_cases hu : u = w
    · subst hu
      simp [seen, Shared.setProcess]
    · simp [seen, Shared.setProcess, hu]
  exact congrArg (fun f => { x with processes := f }) hprocesses

theorem seen_register (courses : WorkerId → Course) (x : Shared) (w : WorkerId) (status : WorkerStatus) (heartbeatAt : Time) :
    seen courses (Cluster.register x w status heartbeatAt) =
      Cluster.register (seen courses x) w status heartbeatAt := by
  have hset := seen_setProcess courses x w { x.processes w with stage := .running }
  have hprocess : (if (courses w).closed then asDrained { x.processes w with stage := .running } else
      { x.processes w with stage := .running }) = { (seen courses x).processes w with stage := .running } := by
    cases hc : (courses w).closed with
    | false => rw [seen_open hc]; rfl
    | true => rw [seen_closed hc]; rfl
  rw [hprocess] at hset
  exact congrArg (fun y : Shared => { y with db := (Cluster.register x w status heartbeatAt).db }) hset

theorem seen_advanceClock (courses : WorkerId → Course) (x : Shared) (now : Time) :
    seen courses (Cluster.advanceClock x now) = Cluster.advanceClock (seen courses x) now := by
  have hprocesses : (seen courses (Cluster.advanceClock x now)).processes =
      (Cluster.advanceClock (seen courses x) now).processes := by
    funext u
    simp only [seen, Cluster.advanceClock]
    split <;> rfl
  exact congrArg (fun f => { x with now, processes := f }) hprocesses

/-- A process that exited is seen as it is. -/
theorem seen_stop (courses : WorkerId → Course) (x : Shared) (w : WorkerId) :
    seen (Function.update courses w {}) (x.setProcess w { stage := .stopped }) =
      (seen courses x).setProcess w { stage := .stopped } := by
  have hprocesses : (seen (Function.update courses w {}) (x.setProcess w { stage := .stopped })).processes =
      ((seen courses x).setProcess w { stage := .stopped }).processes := by
    funext u
    by_cases hu : u = w
    · subst hu
      simp [seen, Shared.setProcess, Course.closed]
    · simp [seen, Shared.setProcess, hu]
  exact congrArg (fun f => { x with processes := f }) hprocesses

/-- Nothing but `setStopping` makes an application one that stops without a back
queue. -/
theorem closed_follows {call : AppCall} {r : call.Reply} (hp : c.Permits call) (hf : c.Follows call r d)
    (hnot : call ≠ .setStopping) : d.closed = c.closed := by
  cases call with
  | await awaitable =>
    cases awaitable with
    | finished role => cases role <;> cases hf <;> rfl
    | _ => cases hf; rfl
  | begin role => cases role <;> cases hf <;> rfl
  | isStopping | servicesReady | backQueueReady | cancelHeartbeat => rw [hf.2]
  | setStopping => exact absurd rfl hnot
  | setBackQueueReady ready =>
    cases hf
    cases ready with
    | true =>
      have hstopping : c.stopping = false := hp.1
      simp [Course.closed, hstopping]
    | false => simp [Course.closed]
  | _ => cases hf; rfl

theorem view_update (h : d.closed = (courses w).closed) (cluster : Cluster) :
    view (Function.update courses w d) cluster = view courses cluster := by
  have hprocesses : (seen (Function.update courses w d) cluster.shared).processes = (seen courses cluster.shared).processes := by
    funext u
    by_cases hu : u = w
    · subst hu
      simp [seen, h]
    · simp [seen, hu]
  exact congrArg (fun f => (⟨{ cluster.shared with processes := f }, cluster.threads⟩ : Cluster)) hprocesses

/-! ## Calls of the protocol -/

theorem seen_setBuckets (courses : WorkerId → Course) (x : Shared) (w : WorkerId) (assignments : List BucketModel) :
    seen courses (x.setNode w { (x.processes w).node with queue := (x.processes w).node.queue.setBuckets assignments }) =
      (seen courses x).setNode w { ((seen courses x).processes w).node with
        queue := ((seen courses x).processes w).node.queue.setBuckets assignments } := by
  have hset := seen_setProcess courses x w { x.processes w with node :=
    { (x.processes w).node with queue := (x.processes w).node.queue.setBuckets assignments } }
  refine hset.trans ?_
  cases hc : (courses w).closed with
  | false => rw [Shared.setNode, seen_open hc]; rfl
  | true => rw [Shared.setNode, seen_closed hc]; rfl

/-- A process that is as good as drained answers its coroutines as it did. -/
theorem execute_seen (courses : WorkerId → Course) {thread : ThreadId} {call : Call} {r : call.Reply}
    (h : x.execute lib thread call = some (r, x')) :
    (seen courses x).execute lib thread call = some (r, seen courses x') := by
  have hready : ((seen courses x).processes thread.worker).node.queue.ready =
      (x.processes thread.worker).node.queue.ready := by
    cases hc : (courses thread.worker).closed with
    | false => rw [seen_open hc]
    | true => rw [seen_closed hc]; rfl
  have hfree : (seen courses x).generalFree thread.worker ↔ x.generalFree thread.worker := by
    unfold Shared.generalFree
    cases hc : (courses thread.worker).closed with
    | false => rw [seen_open hc]
    | true => rw [seen_closed hc]; exact Iff.rfl
  cases call with
  | acquireLock =>
    simp only [Shared.execute] at h ⊢
    split at h <;> cases h
    rename_i hlock
    exact if_pos hlock
  | releaseLock =>
    simp only [Shared.execute] at h ⊢
    split at h <;> cases h
    · rename_i hlock
      exact if_pos hlock
    · rename_i hlock
      exact if_neg hlock
  | backQueueReady =>
    cases h
    simp only [Shared.execute, hready]
  | bucketStates | drainedBuckets =>
    simp only [Shared.execute] at h ⊢
    split at h <;> cases h
    rw [if_pos (hfree.mpr (by assumption))]
    cases hc : (courses thread.worker).closed with
    | false => rw [seen_open hc]
    | true => rw [seen_closed hc]; rfl
  | setBuckets assignments =>
    cases h
    simp only [Shared.execute, seen_setBuckets]
  | _ => cases h; rfl

/-! ## Steps of the cluster -/

/-- What is respected in the cluster as it is seen. -/
abbrev Shares (lib : Externals) (c : Cluster) : Prop := (exclusiveRegime lib).contract.Holds c

/-- What the others do not notice and nobody gains by. -/
theorem shares_follows {c : Cluster} (h : Shares lib c) (ho : Regime.Outside c.shared x')
    (hlock : x'.lock = c.shared.lock) (hf : ∀ w, (c.shared.processes w).Follows lib (x'.processes w))
    (hlive : ∀ w, (x'.processes w).stage = .running → (x'.processes w).Gone ∨ x'.Live w) : Shares lib ⟨x', c.threads⟩ := by
  have hinv : Exclusive lib c.shared := h.inv
  have hused : ∀ w b, ¬ (x'.processes w).Gone → (x'.processes w).node.Relies lib b →
      ¬ (c.shared.processes w).Gone ∧ (c.shared.processes w).node.Relies lib b :=
    fun w b hgone hr => ⟨fun hg => hgone ((hf w).gone hg), (hf w).relies b hgone hr⟩
  have hexclusive : Exclusive lib x' := {
    sane := Regime.sane_outside hinv.sane ho
    sound := fun w => (hf w).sound (hinv.sound w)
    vacant := fun w => (hf w).vacant (hinv.vacant w)
    live := hlive
    owned := fun w b hgone hr => by
      obtain ⟨hgone₀, hr₀⟩ := hused w b hgone hr
      obtain ⟨r, hget, howner⟩ := hinv.owned w b hgone₀ hr₀
      obtain ⟨r', hget', hsame⟩ := ho.kept.forth b r hget
      exact ⟨r', hget', hsame.owner.trans howner⟩ }
  refine h.change hexclusive (fun thread body hbody => .inl ⟨hbody, ?_⟩)
  exact Regime.rely_outside (fun hl => hlock.trans hl) ho.kept ho.now ho.known (fun w => (hf w).gone)
    (fun w => (hf w).gone) (fun w b hu hu' => hu (hused w b hu'.1 hu'.2))

/-- The same of what happens to the cluster from outside. -/
theorem shares_changed {c : Cluster} {action : ClusterAction} (h : Shares lib c) (hch : Cluster.Changed lib c.shared action x')
    (hcond : Orderly lib c action) (hlock : x'.lock = c.shared.lock) : Shares lib ⟨x', c.threads⟩ :=
  shares_follows h (Regime.outside_of_changed hch) hlock (follows_of_changed hch hcond)
    (live_of_changed h.inv hch hcond)

theorem shares_coordinate {c : Cluster} (h : Shares lib c) (moves : BucketMoves) (w : WorkerId) :
    Shares lib (c.spawn ⟨w, .coordination⟩ (Linksurf.coordinate moves w)) :=
  h.spawn (Regime.contract_of_safe (Regime.safe_coordinate (t := ⟨w, .coordination⟩) rfl moves _) coherently_coordinate)

theorem shares_release {c : Cluster} (h : Shares lib c) (hgone : (c.shared.processes w).Gone) :
    Shares lib (c.spawn ⟨w, .shutdown⟩ (Linksurf.release w)) :=
  h.spawn (Regime.contract_of_safe (Regime.safe_release (t := ⟨w, .shutdown⟩) rfl hgone) coherently_release)

/-- An application that begins to stop without a back queue has nothing to lose. -/
theorem shares_close {cluster : Cluster} (h : Shares lib (view courses cluster))
    (hvacant : (cluster.shared.processes w).node.Vacant) (hopen : (courses w).closed = false) (hd : d.closed = true) :
    Shares lib (view (Function.update courses w d) cluster) := by
  have hx : (view (Function.update courses w d) cluster).shared =
      (view courses cluster).shared.setProcess w (asDrained (cluster.shared.processes w)) := by
    have hprocesses : (seen (Function.update courses w d) cluster.shared).processes =
        ((seen courses cluster.shared).setProcess w (asDrained (cluster.shared.processes w))).processes := by
      funext u
      by_cases hu : u = w
      · subst hu
        simp [seen, Shared.setProcess, hd]
      · simp [seen, Shared.setProcess, hu]
    exact congrArg (fun f => { cluster.shared with processes := f }) hprocesses
  have hsame : (view courses cluster).shared.processes w = cluster.shared.processes w := seen_open hopen
  have hgone : (asDrained (cluster.shared.processes w)).Gone := .inr (quiet_asDrained hvacant)
  have hfollows : ((view courses cluster).shared.processes w).Follows lib (asDrained (cluster.shared.processes w)) := by
    rw [hsame]
    refine Process.follows_of (follows_drain lib _) (fun hs => ?_) (fun hs => ⟨?_, id⟩)
    · simp [asDrained, hs]
    · simp only [asDrained] at hs
      split at hs
      · cases hs
      · exact hs
  have hshares : Shares lib ⟨(view courses cluster).shared.setProcess w (asDrained (cluster.shared.processes w)),
      (view courses cluster).threads⟩ := by
    refine shares_follows h (Regime.outside_of_db rfl (le_refl _) (Regime.known_setProcess fun _ => ?_)) rfl
      (follows_setProcess hfollows) (fun u hu => ?_)
    · simp only [asDrained]
      split
      · simp
      · assumption
    · by_cases he : u = w
      · subst he
        exact .inl (by simpa [Shared.setProcess] using hgone)
      · have hkept : ((view courses cluster).shared.setProcess w (asDrained (cluster.shared.processes w))).processes u =
            (view courses cluster).shared.processes u := Function.update_of_ne he ..
        rw [hkept] at hu ⊢
        exact h.inv.live u hu
  rw [← hx] at hshares
  exact hshares

/-! ## Steps of the processes -/

/-- A lease that is written is not over yet. -/
def Fresh (now : Time) : Rest → Prop
  | .await (.await (.upsertWorker _ heartbeatAt)) _ => now < heartbeatAt + WORKER_LEASE_SECONDS
  | _ => True

def Heartbeat.Fresh (now : Time) : Heartbeat → Prop
  | .running rest | .cancelled rest => Application.Fresh now rest
  | _ => True

/-- Running holders keep the lock, workers that may get work keep their leases,
and stored addresses parse to their domains. -/
def Kept (lib : Externals) (s : Processes) : ProcessAction → Prop
  | .tick now => ∀ w, (s.process w).stage = .running → ¬ (s.process w).node.Quiet →
      ∃ r ∈ s.cluster.shared.db.workers.records, r.id = w ∧ now < r.expiresAt
  | .main w _ => Application.Fresh s.cluster.shared.now (s.apps w).main
  | .beat w _ => (s.apps w).heartbeat.Fresh s.cluster.shared.now
  | .lockExpires => ∀ thread, s.cluster.shared.lock = some thread → s.cluster.threads thread = none
  | .node _ (.run _ reply) => reply.Registered lib
  | _ => True

/-- What an operation of an application does to the cluster. -/
inductive Affects (lib : Externals) (moves : BucketMoves) (w : WorkerId) (s : Cluster) : AppCall → Cluster → Prop
  | nothing {call} : Affects lib moves w s call s
  | ensure {call} (bucket : Nat) :
    Affects lib moves w s call { s with shared.db.buckets := s.shared.db.buckets.ensureOne bucket }
  | upsert {status heartbeatAt} : Affects lib moves w s (.await (.upsertWorker status heartbeatAt))
      { s with shared := Cluster.register s.shared w status heartbeatAt }
  | coordinate {call} : Affects lib moves w s call (s.spawn ⟨w, .coordination⟩ (Linksurf.coordinate moves w))
  | release : Affects lib moves w s (.begin .shutdown) (s.spawn ⟨w, .shutdown⟩ (Linksurf.release w))
  | draining {call} : Affects lib moves w s call { s with shared := s.shared.setProcess w { s.shared.processes w with
      status := .draining
      node := { (s.shared.processes w).node with
        queue := { (s.shared.processes w).node.queue with draining := true } } } }
  | node {call action node} (hcall : (∃ ready, call = .setBackQueueReady ready) ∨ ∃ timeout, call = .waitForDrain timeout)
    (hinternal : action.internal = true) (hrun : ∀ task reply, action ≠ .run task reply)
    (h : (s.shared.processes w).node.step lib action = some node) :
    Affects lib moves w s call { s with shared := s.shared.setNode w node }

theorem affects_act {action : Action} (hinternal : action.internal = true) (hrun : ∀ task reply, action ≠ .run task reply)
    {call : AppCall} (hcall : (∃ ready, call = .setBackQueueReady ready) ∨ ∃ timeout, call = .waitForDrain timeout)
    (h : s.act lib moves (.node w action) = some t) : Affects lib moves w s.cluster call t.cluster := by
  obtain ⟨cluster, hstep, rfl⟩ := Option.map_eq_some_iff.mp h
  simp only [Cluster.step] at hstep
  split at hstep
  · obtain ⟨n', hn, rfl⟩ := Option.map_eq_some_iff.mp hstep
    exact .node hcall hinternal hrun hn
  · cases hstep

theorem affects_ended (outcome : Outcome) (awaitable : Awaitable) :
    Affects lib moves w s.cluster (.await awaitable) (s.ended w outcome awaitable).cluster := by
  unfold Processes.ended
  split
  · cases awaitable with
    | ensureBucketRecord bucket => exact .ensure bucket
    | upsertWorker => exact .upsert
    | componentStart component => cases component <;> exact .nothing
    | _ => exact .nothing
  · exact .nothing

theorem affects_answer {outcome : Outcome} {call : AppCall} {r : call.Reply}
    (h : s.answer lib moves w outcome call = some (r, t)) : Affects lib moves w s.cluster call t.cluster := by
  cases call with
  | await awaitable =>
    simp only [Processes.answer] at h
    split at h <;> cases h
    exact affects_ended outcome awaitable
  | begin role =>
    cases h
    cases role with
    | coordination => exact .coordinate
    | shutdown => exact .release
  | setBackQueueReady ready =>
    obtain ⟨t', ha, he⟩ := Option.map_eq_some_iff.mp h
    cases he
    exact affects_act rfl (fun _ _ hrun => by cases hrun) (.inl ⟨ready, rfl⟩) ha
  | waitForDrain timeout =>
    obtain ⟨t', ha, he⟩ := Option.map_eq_some_iff.mp h
    cases he
    exact affects_act rfl (fun _ _ hrun => by cases hrun) (.inr ⟨timeout, rfl⟩) ha
  | markDraining => cases h; exact .draining
  | createCoordination =>
    simp only [Processes.answer] at h
    split at h <;> cases h
    · exact .coordinate
    · exact .nothing
  | drained | cancelHeartbeat | joinHeartbeat | joinCoordination =>
    simp only [Processes.answer] at h
    split at h <;> cases h <;> exact .nothing
  | _ => cases h; exact .nothing

theorem gone_of_release (h : s.Stands lib (courses w) w) (hp : (courses w).Permits (.begin .shutdown)) :
    ((view courses s.cluster).shared.processes w).Gone := by
  obtain ⟨-, hjoined, -, hor⟩ := hp
  cases hc : (courses w).closed with
  | true =>
    have hopened : (courses w).opened = false := by
      simp only [Course.closed, Bool.and_eq_true, Bool.not_eq_true'] at hc
      exact hc.2
    have hsame : (view courses s.cluster).shared.processes w = asDrained (s.process w) := seen_closed hc
    rw [hsame]
    exact .inr (quiet_asDrained (h.vacant hopened).1)
  | false =>
    have hsame : (view courses s.cluster).shared.processes w = s.process w := seen_open hc
    rw [hsame]
    refine .inr (h.drained (hor.resolve_right fun hopened => ?_))
    simp [Course.closed, (h.joined hjoined).1, hopened] at hc

theorem shares_seen {cluster : Cluster} (action : ClusterAction) (h : Shares lib (view courses cluster))
    (hch : Cluster.Changed lib (seen courses cluster.shared) action (seen courses x'))
    (hcond : Orderly lib (view courses cluster) action) (hlock : x'.lock = cluster.shared.lock) :
    Shares lib (view courses ⟨x', cluster.threads⟩) := by
  have hshares := shares_changed h hch hcond hlock
  exact hshares

theorem shares_register {cluster : Cluster} (h : Shares lib (view courses cluster))
    (halive : (cluster.shared.processes w).stage ≠ .stopped) (status : WorkerStatus) {heartbeatAt : Time}
    (hfresh : cluster.shared.now < heartbeatAt + WORKER_LEASE_SECONDS) :
    Shares lib (view courses ⟨Cluster.register cluster.shared w status heartbeatAt, cluster.threads⟩) := by
  refine shares_seen (.upsert w status heartbeatAt) h ?_ hfresh rfl
  rw [seen_register]
  exact .upsert (stage_seen halive)

theorem shares_drain {cluster : Cluster} (h : Shares lib (view courses cluster)) (w : WorkerId) :
    Shares lib (view courses ⟨cluster.shared.setProcess w { cluster.shared.processes w with
      status := .draining
      node := { (cluster.shared.processes w).node with
        queue := { (cluster.shared.processes w).node.queue with draining := true } } }, cluster.threads⟩) := by
  refine shares_seen (.markDraining w) h ?_ trivial rfl
  rw [seen_setProcess]
  have hdraining := @Cluster.Changed.draining lib (seen courses cluster.shared) w
  cases hc : (courses w).closed with
  | false =>
    rw [seen_open hc] at hdraining
    exact hdraining
  | true =>
    rw [seen_closed hc] at hdraining
    exact hdraining

theorem shares_node {cluster : Cluster} (h : Shares lib (view courses cluster)) (hopen : (courses w).closed = false)
    {action : Action} {n' : Node} (hinternal : action.internal = true)
    (halive : (cluster.shared.processes w).stage ≠ .stopped) (hn : (cluster.shared.processes w).node.step lib action = some n')
    (hreg : ∀ task reply, action = .run task reply → reply.Registered lib) :
    Shares lib (view courses ⟨cluster.shared.setNode w n', cluster.threads⟩) := by
  refine shares_seen (.node w action) h ?_ ?_ rfl
  · have hnode : Cluster.Changed lib (seen courses cluster.shared) (.node w action)
        ((seen courses cluster.shared).setProcess w { (seen courses cluster.shared).processes w with node := n' }) :=
      .node hinternal (stage_seen halive) (by rw [seen_open hopen]; exact hn)
    rw [seen_open hopen] at hnode
    rw [Shared.setNode, seen_setProcess, hopen]
    exact hnode
  · cases action with
    | run task reply => exact hreg task reply rfl
    | _ => exact trivial

/-- A lock that wakes its first in line changes no process that is stopping. -/
theorem shares_grant {cluster : Cluster} (h : Shares lib (view courses cluster))
    (halive : (cluster.shared.processes w).stage ≠ .stopped) (lock : LockName) :
    Shares lib (view courses ⟨cluster.shared.setNode w { (cluster.shared.processes w).node with
      tasks := (cluster.shared.processes w).node.tasks.grant lock }, cluster.threads⟩) := by
  refine shares_seen (.node w (.grant lock)) h ?_ trivial rfl
  have hnode : Cluster.Changed lib (seen courses cluster.shared) (.node w (.grant lock))
      ((seen courses cluster.shared).setProcess w { (seen courses cluster.shared).processes w with
        node := { ((seen courses cluster.shared).processes w).node with
          tasks := ((seen courses cluster.shared).processes w).node.tasks.grant lock } }) :=
    .node rfl (stage_seen halive) rfl
  rw [Shared.setNode, seen_setProcess]
  cases hc : (courses w).closed with
  | false =>
    rw [seen_open hc] at hnode
    exact hnode
  | true =>
    rw [seen_closed hc] at hnode
    exact hnode

/-! ## The invariant of the processes -/

/-- Everybody is at a point of a course, and the cluster is shared. -/
structure Common (lib : Externals) (s : Processes) (courses : WorkerId → Course) : Prop where
  at_course : ∀ w, s.At lib w (courses w)
  shares : Shares lib (view courses s.cluster)

theorem shares_affects {call : AppCall} {cluster : Cluster} (h : Common lib s courses) (halive : s.alive w)
    (haffects : Affects lib moves w s.cluster call cluster)
    (hpermits : (courses w).Permits call ∨ call.Beats)
    (hfresh : ∀ status heartbeatAt, call = .await (.upsertWorker status heartbeatAt) →
      s.cluster.shared.now < heartbeatAt + WORKER_LEASE_SECONDS) : Shares lib (view courses cluster) := by
  cases haffects with
  | nothing => exact h.shares
  | ensure bucket => exact shares_seen (.ensure bucket) h.shares .ensure trivial rfl
  | upsert => exact shares_register h.shares halive _ (hfresh _ _ rfl)
  | coordinate => exact shares_coordinate h.shares moves w
  | release =>
    have hp := hpermits.resolve_right id
    exact shares_release h.shares (gone_of_release (h.at_course w).stands hp)
  | draining => exact shares_drain h.shares w
  | node hcall hinternal hrun hn =>
    have hopen : (courses w).closed = false := by
      have hp : (courses w).Permits call := by
        obtain ⟨b, rfl⟩ | ⟨timeout, rfl⟩ := hcall
        · exact hpermits.resolve_right id
        · exact hpermits.resolve_right id
      obtain ⟨b, rfl⟩ | ⟨timeout, rfl⟩ := hcall
      · cases b with
        | true => simp [Course.closed, show (courses w).stopping = false from hp.1]
        | false => simp [Course.closed, show (courses w).opened = true from hp]
      · simp [Course.closed, hp.1]
    exact shares_node h.shares hopen hinternal halive hn (fun task reply he => absurd he (hrun task reply))

/-! ## Steps of the event loops -/

theorem orderly_tick (h : Common lib s courses) {now : Time} (hkept : Kept lib s (.tick now)) :
    Orderly lib (view courses s.cluster) (.tick now) := by
  intro w hw hquiet
  cases hc : (courses w).closed with
  | true =>
    have hopened : (courses w).opened = false := by
      simp only [Course.closed, Bool.and_eq_true, Bool.not_eq_true'] at hc
      exact hc.2
    have hsame : (view courses s.cluster).shared.processes w = asDrained (s.process w) := seen_closed hc
    rw [hsame] at hquiet
    exact absurd (quiet_asDrained ((h.at_course w).stands.vacant hopened).1) hquiet
  | false =>
    have hsame : (view courses s.cluster).shared.processes w = s.process w := seen_open hc
    rw [hsame] at hw hquiet
    exact hkept w hw hquiet

theorem shares_tick (h : Common lib s courses) {now : Time} (hkept : Kept lib s (.tick now))
    (hs : s.act lib moves (.tick now) = some t) : Shares lib (view courses t.cluster) := by
  obtain ⟨cluster, hstep, rfl⟩ := Option.map_eq_some_iff.mp hs
  simp only [Cluster.step] at hstep
  split at hstep <;> cases hstep
  rename_i hle
  refine shares_seen (.tick now) h.shares ?_ (orderly_tick h hkept) rfl
  rw [seen_advanceClock]
  exact .tick hle

/-- The coroutines of the workers run in the cluster as it is seen. -/
theorem view_run {thread : ThreadId} {cluster cluster' : Cluster}
    (h : cluster.step lib moves (.run thread) = some cluster') :
    (view courses cluster).step lib moves (.run thread) = some (view courses cluster') := by
  have hthreads : (view courses cluster).threads thread = cluster.threads thread := rfl
  obtain ⟨a, ha, rfl⟩ | ⟨call, k, r, x, ha, hexec, rfl⟩ := State.run_cases h
  · simp only [Cluster.step, State.run, hthreads, ha]
    rfl
  · have hview := execute_seen courses hexec
    simp only [Cluster.step, State.run, hthreads, ha]
    exact congrArg (Option.map _) hview

theorem view_abort {thread : ThreadId} {cluster cluster' : Cluster}
    (h : cluster.step lib moves (.abort thread) = some cluster') :
    (view courses cluster).step lib moves (.abort thread) = some (view courses cluster') := by
  simp only [Cluster.step] at h
  split at h <;> cases h
  rename_i hsome
  refine (if_pos hsome).trans ?_
  by_cases hlock : cluster.shared.lock = some thread
  · have hview : (view courses cluster).shared.lock = some thread := hlock
    rw [if_pos hlock, if_pos hview]
    rfl
  · have hview : (view courses cluster).shared.lock ≠ some thread := hlock
    rw [if_neg hlock, if_neg hview]
    rfl

/-- What the cluster does as it is seen. -/
theorem shares_step (moves : BucketMoves) (action : ClusterAction) {c c' : Cluster} (h : Shares lib c)
    (hcond : Orderly lib c action) (hs : c.step lib moves action = some c') : Shares lib c' := exclusive_step h hcond hs

/-- A task of the event loop; a process that is stopping has none that could
fetch. -/
theorem shares_task (h : Common lib s courses) {action : Action} (hkept : Kept lib s (.node w action))
    (htask : Processes.ofTask (s.apps w).downloading action = true)
    (hs : s.act lib moves (.node w action) = some t) : Shares lib (view courses t.cluster) := by
  obtain ⟨cluster, hstep, rfl⟩ := Option.map_eq_some_iff.mp hs
  simp only [Cluster.step] at hstep
  split at hstep
  · rename_i hcan
    obtain ⟨n', hn, rfl⟩ := Option.map_eq_some_iff.mp hstep
    cases hc : (courses w).closed with
    | false =>
      refine shares_node h.shares hc hcan.1 hcan.2 hn (fun task reply he => ?_)
      subst he
      exact hkept
    | true =>
      have hopened : (courses w).opened = false := by
        simp only [Course.closed, Bool.and_eq_true, Bool.not_eq_true'] at hc
        exact hc.2
      obtain ⟨hvacant, hdownloading⟩ := (h.at_course w).stands.vacant hopened
      cases action with
      | run task reply =>
        obtain ⟨pc, a, hran⟩ := runTask_ran hn
        have hpc : pc ∈ (s.process w).node.tasks.pcs := List.mem_of_getElem? hran.at_pc
        rw [hvacant.2] at hpc
        cases hpc
      | loop =>
        rw [show (s.apps w).downloading = true from htask] at hdownloading
        cases hdownloading
      | grant lock =>
        cases hn
        exact shares_grant h.shares hcan.2 lock
      | _ => cases htask
  · cases hstep

/-! ## Steps of the applications -/

theorem shares_main (h : Common lib s courses) {outcome : Outcome} (ha : s.alive w)
    (hkept : Kept lib s (.main w outcome)) (hs : s.stepMain lib moves w outcome = some t) :
    ∃ d, t.At lib w d ∧ Shares lib (view (Function.update courses w d) t.cluster) := by
  obtain ⟨call, k, r, t', d, hmain, hpermits, hanswer, hcluster, hfollows, hat⟩ := at_stepMain (h.at_course w) ha hs
  refine ⟨d, hat, ?_⟩
  have haffects := affects_answer hanswer
  rw [hcluster]
  by_cases hstop : call = .setStopping
  · subst hstop
    cases hanswer
    cases hfollows
    by_cases hsame : Course.closed { courses w with stopping := true } = (courses w).closed
    · rw [view_update hsame]
      exact h.shares
    · -- it begins to stop, and its back queue was never started
      have hopen : (courses w).closed = false := by
        by_contra hclosed
        simp [Course.closed] at hclosed hsame
        exact absurd hclosed.1 (by simpa [hclosed.2] using hsame)
      have hd : Course.closed { courses w with stopping := true } = true := by
        rw [hopen] at hsame
        simpa using hsame
      have hopened : (courses w).opened = false := by simpa [Course.closed] using hd
      exact shares_close h.shares ((h.at_course w).stands.vacant hopened).1 hopen hd
  · rw [view_update (closed_follows hpermits hfollows hstop)]
    refine shares_affects h ha haffects (.inl hpermits) ?_
    rintro status heartbeatAt rfl
    rw [Kept, hmain] at hkept
    exact hkept

theorem shares_beat (h : Common lib s courses) {outcome : Outcome} (ha : s.alive w)
    (hkept : Kept lib s (.beat w outcome)) (hs : s.stepBeat lib moves w outcome = some t) :
    Shares lib (view courses t.cluster) := by
  have hbeats := (h.at_course w).stands.beats
  rw [Kept] at hkept
  simp only [Processes.stepBeat] at hs
  split at hs
  · cases hs
    exact h.shares
  · rename_i call k hrest
    rw [hrest] at hbeats hkept
    obtain ⟨⟨r, t'⟩, hanswer, rfl⟩ := Option.map_eq_some_iff.mp hs
    have haffects := affects_answer hanswer
    refine shares_affects h ha haffects (.inr hbeats.1) ?_
    rintro status heartbeatAt rfl
    exact hkept
  · rename_i awaitable k hrest
    cases hs
    rw [hrest] at hbeats hkept
    have haffects : Affects lib moves w s.cluster (.await awaitable) _ := affects_ended outcome awaitable
    refine shares_affects h ha haffects (.inr hbeats.1) ?_
    intro status heartbeatAt he
    cases he
    exact hkept
  · cases hs
    exact h.shares
  · cases hs

/-- Every step leads to a point of the courses from which the buckets are
shared. -/
theorem common_step {a : ProcessAction} (h : Common lib s courses) (hkept : Kept lib s a)
    (hs : s.step lib moves a = some t) : ∃ courses', Common lib t courses' := by
  have hsame (hmain : ∀ w outcome, a ≠ .main w outcome) (hkill : ∀ w, a ≠ .kill w) (w : WorkerId) :
      t.At lib w (courses w) := (at_step_same hs (h.at_course w) (hmain w) (hkill w)).1
  have hothers (w : WorkerId) (d : Course) (hw : t.At lib w d) (hmain : ∀ u outcome, u ≠ w → a ≠ .main u outcome)
      (hkill : ∀ u, u ≠ w → a ≠ .kill u) (u : WorkerId) : t.At lib u (Function.update courses w d u) := by
    by_cases hu : u = w
    · subst hu
      simpa using hw
    · rw [Function.update_of_ne hu]
      exact (at_step_same hs (h.at_course u) (fun outcome => hmain u outcome hu) (hkill u hu)).1
  cases a with
  | tick now => exact ⟨courses, hsame (fun _ _ he => by cases he) (fun _ he => by cases he), shares_tick h hkept hs⟩
  | run thread =>
    refine ⟨courses, hsame (fun _ _ he => by cases he) (fun _ he => by cases he), ?_⟩
    obtain ⟨cluster, hstep, rfl⟩ := Option.map_eq_some_iff.mp hs
    exact shares_step moves (.run thread) h.shares trivial (view_run hstep)
  | abort thread =>
    refine ⟨courses, hsame (fun _ _ he => by cases he) (fun _ he => by cases he), ?_⟩
    obtain ⟨cluster, hstep, rfl⟩ := Option.map_eq_some_iff.mp hs
    exact shares_step moves (.abort thread) h.shares trivial (view_abort hstep)
  | lockExpires =>
    refine ⟨courses, hsame (fun _ _ he => by cases he) (fun _ he => by cases he), ?_⟩
    cases hs
    exact shares_step moves .lockExpires h.shares hkept rfl
  | node w action =>
    refine ⟨courses, hsame (fun _ _ he => by cases he) (fun _ he => by cases he), ?_⟩
    simp only [Processes.step] at hs
    split at hs
    · exact shares_task h hkept (by assumption) hs
    · cases hs
  | signal w =>
    refine ⟨courses, hsame (fun _ _ he => by cases he) (fun _ he => by cases he), ?_⟩
    simp only [Processes.step] at hs
    split at hs <;> cases hs
    exact shares_drain h.shares w
  | beat w outcome =>
    refine ⟨courses, hsame (fun _ _ he => by cases he) (fun _ he => by cases he), ?_⟩
    simp only [Processes.step] at hs
    split at hs
    · exact shares_beat h (by assumption) hkept hs
    · cases hs
  | main w outcome =>
    have hstep := hs
    simp only [Processes.step] at hstep
    split at hstep
    · obtain ⟨d, hat, hshares⟩ := shares_main h (by assumption) hkept hstep
      refine ⟨Function.update courses w d, hothers w d hat ?_ (fun _ _ he => by cases he), hshares⟩
      intro u outcome hu he
      cases he
      exact hu rfl
    · cases hstep
  | kill w =>
    refine ⟨Function.update courses w {}, hothers w {} (at_kill hs).1 (fun _ _ _ he => by cases he) ?_, ?_⟩
    · intro u hu he
      cases he
      exact hu rfl
    · cases hs
      have hshares := shares_step moves (.stop w) h.shares trivial rfl
      dsimp only [view] at hshares
      rw [← seen_stop] at hshares
      exact hshares

theorem common_of_reaches {setup : WorkerId → Setup}
    (h : Reaches (Processes.step lib moves) (Kept lib) (.initial setup) s) : ∃ courses, Common lib s courses := by
  refine h.invariant (fun s => ∃ courses, Common lib s courses) ⟨fun _ => {}, fun w => ?_, ?_⟩ ?_
  · exact ⟨stand_initial _ rfl, fun _ => keeps_start (setup w)⟩
  · have hstart : Reaches (Cluster.step lib moves) (Orderly lib) .initial .initial := .refl
    refine ⟨exclusive_of_reaches hstart, ?_⟩
    intro thread body hb
    cases hb
  · rintro s a t ⟨courses, hc⟩ hkept hs
    exact common_step hc hkept hs

/-- A worker with work of a bucket owns it, and no two workers have work of one,
however the processes start, stop and fail. -/
theorem processes_share (lib : Externals) (moves : BucketMoves) (setup : WorkerId → Setup) (s : Processes)
    (h : Reaches (Processes.step lib moves) (Kept lib) (.initial setup) s) :
    (∀ w b, (s.process w).node.Works lib b →
      ∃ r, s.cluster.shared.db.buckets.get? b = some r ∧ r.ownerId = some w) ∧
    ∀ w w' b, (s.process w).node.Works lib b → (s.process w').node.Works lib b → w = w' := by
  obtain ⟨courses, hc⟩ := common_of_reaches h
  have hs : Exclusive lib (seen courses s.cluster.shared) := hc.shares.inv
  have howns (w : WorkerId) (b : Nat) (hwork : (s.process w).node.Works lib b) :
      ∃ r, s.cluster.shared.db.buckets.get? b = some r ∧ r.ownerId = some w := by
    have hopen : (courses w).closed = false := by
      by_contra hclosed
      have hopened : (courses w).opened = false := by
        simp only [Course.closed, Bool.and_eq_true, Bool.not_eq_true', Bool.not_eq_false] at hclosed
        exact hclosed.2
      exact ((hc.at_course w).stands.vacant hopened).1.no_work b hwork
    have hsame : (seen courses s.cluster.shared).processes w = s.process w := seen_open hopen
    refine hs.owned w b (fun hgone => ?_) (by rw [hsame]; exact hwork.relies)
    rw [hsame] at hgone
    obtain hstopped | hquiet := hgone
    · exact (hs.vacant w (by rw [hsame]; exact hstopped)).no_work b (by rw [hsame]; exact hwork)
    · exact hwork.elim (hquiet.no_work b).1 (fun ho => ho (hquiet.no_work b).2)
  refine ⟨howns, fun w w' b hwork hwork' => ?_⟩
  obtain ⟨r, hget, ho⟩ := howns w b hwork
  obtain ⟨r', hget', ho'⟩ := howns w' b hwork'
  obtain rfl := Option.some.inj (hget.symm.trans hget')
  exact Option.some.inj (ho.symm.trans ho')

/-- The actions of `Worker.on_start` and of `start` until the Downloader runs. -/
def joining (w : WorkerId) : List ProcessAction :=
  registering w ++ .main w .done :: List.replicate (15 + BUCKET_COUNT) (.run ⟨w, .coordination⟩) ++
    List.replicate 6 (.main w .done)

def freshTest (now : Time) : Rest → Bool
  | .await (.await (.upsertWorker _ heartbeatAt)) _ => now < heartbeatAt + WORKER_LEASE_SECONDS
  | _ => true

theorem fresh_of_test {now : Time} {rest : Rest} (h : freshTest now rest = true) : Fresh now rest := by
  unfold Fresh
  split
  · simpa [freshTest] using h
  · trivial

/-- A test that implies `Kept`: time stands still, leases are fresh, and page 1
is the only document. -/
def untroubled (s : Processes) : ProcessAction → Bool
  | .tick _ | .lockExpires | .beat _ _ => false
  | .main w _ => freshTest s.cluster.shared.now (s.apps w).main
  | .node _ (.run _ (.urls snapshot)) => snapshot = [page1]
  | _ => true

theorem kept_of_untroubled (s : Processes) (a : ProcessAction) (h : untroubled s a = true) : Kept site s a := by
  cases a with
  | tick | lockExpires | beat => cases h
  | main w outcome => exact fresh_of_test h
  | node w action =>
    cases action with
    | run task reply =>
      cases reply with
      | urls snapshot =>
        obtain rfl : snapshot = [page1] := by simpa [untroubled] using h
        exact fun u hu => List.mem_singleton.mp hu ▸ page1_registered
      | _ => trivial
    | _ => trivial
  | _ => trivial

/-- The only process was given every bucket and queued a page of one. -/
theorem processes_share_site : ∃ s, Reaches (Processes.step site .all) (Kept site) (.initial fun _ => ⟨[], [], []⟩) s ∧
    (s.process "a").node.Works site 1 ∧
    ∃ r, s.cluster.shared.db.buckets.get? 1 = some r ∧ r.ownerId = some "a" := by
  obtain ⟨s, hs, hqueued⟩ := exists_reaches (P := Kept site) (Processes.step site .all) (.initial fun _ => ⟨[], [], []⟩)
    untroubled kept_of_untroubled
    (joining "a" ++ [.node "a" .loop, .node "a" (.run 0 .done), .node "a" (.run 0 .done), .node "a" (.run 0 (.domains [])),
      .node "a" (.run 0 (.urls [page1])), .node "a" (.run 0 (.urls [page1])), .node "a" (.run 0 .done)])
    (fun s => (s.process "a").node.queue.queues.entries.any (fun e => e.2.any (·.inBucket site 1)))
    (by decide +kernel)
  obtain ⟨e, he, hin⟩ := List.any_eq_true.mp hqueued
  obtain ⟨p, hp, hb⟩ := List.any_eq_true.mp hin
  have hwork : (s.process "a").node.Works site 1 := .inl ⟨e, he, p, hp, hb⟩
  exact ⟨s, hs, hwork, (processes_share site .all _ s hs).1 "a" 1 hwork⟩

end Linksurf.Application
