import Linksurf.Accounting
import Linksurf.Starvation
import Mathlib.Algebra.Order.Archimedean.Basic
import Mathlib.Tactic.Linarith

/-!
# Every task goes on

Blocks under the general lock end after a bounded number of awaits, and whoever
waits for the general lock holds at most a domain's. So under a fair event loop
no task of the Downloader, no cleanup and no `wait_for_drain` waits for ever.
-/
namespace Linksurf

open Monitor Execution

/-! ## The locking protocol -/

/-- The task has ended. -/
def Pc.ended : Pc → Bool
  | .drained | .timedOut | .finished => true
  | _ => false

/-- Steps until a task leaves its lock regions, at most. -/
def Pc.left : Pc → Nat
  | .scan | .waitLocked _ => 1
  | .enqueue _ => 2 * MAX_URLS_PER_DOMAIN + 6
  | .excludedDomains _ _ => 2 * MAX_URLS_PER_DOMAIN + 5
  | .distinctDomains _ _ _ => 2 * MAX_URLS_PER_DOMAIN + 4
  | .domainUrls _ _ => 2 * MAX_URLS_PER_DOMAIN + 3
  | .putting _ urls => 2 * urls.length + 2
  | .domainReleaseTime _ _ urls => 2 * urls.length + 3
  | .domainLock _ _ => 4
  | .fetching _ _ => 3
  | .reporting _ _ _ => 2
  | .completing _ _ => 1
  | .cleanupDomain _ _ => 2
  | .cleanupGeneral _ _ => 1
  | _ => 0

def LockName.rank : LockName → Nat
  | .general => 0
  | .domain _ => 1

/-- A step from one point to another, whatever the reply. -/
def Pc.Moves (pc pc' : Pc) : Prop :=
  ∃ (lib : Externals) (locked : LockId → Bool) (now : Time) (q : BackQueue) (reply : Reply) (a : Advance),
    advance lib locked now q pc reply = some a ∧ a.pc = pc'

theorem Pc.idle_left {pc : Pc} (h : pc.idle) : pc.left ≤ 1 := by
  cases pc <;> simp_all [Pc.idle, Pc.left]

theorem Pc.enqueuing_left {pc : Pc} (h : pc.enqueuing) : 2 ≤ pc.left := by
  cases pc <;> simp_all [Pc.enqueuing, Pc.left]

/-- The scan is one step. -/
theorem scan_leaves {pc' : Pc} (h : Pc.scan.Moves pc') : pc'.region = [] := by
  obtain ⟨lib, locked, now, q, reply, a, ha, rfl⟩ := h
  cases reply with
  | done =>
    simp only [advance] at ha
    split at ha <;> cases ha <;> rfl
  | _ => cases ha

theorem getDomainUrls_length (snapshot : List UrlModel) (domain : String) (limit : Nat) :
    (getDomainUrls snapshot domain limit).length ≤ limit := by
  unfold getDomainUrls
  exact List.length_take_le _ _

theorem left_lt_of_moves {pc pc' : Pc} {k : LockName} (h : pc.Moves pc') (hk : k ∈ pc.region) (hk' : k ∈ pc'.region) :
    pc'.left < pc.left := by
  obtain ⟨lib, locked, now, q, reply, a, ha, rfl⟩ := h
  have heffect := advance_effect ha
  cases heffect with
  | idle h h' =>
    have hscan : pc = .scan := by cases pc <;> simp_all [Pc.idle, Pc.region]
    subst hscan
    rw [scan_leaves ⟨lib, locked, now, q, reply, _, ha, rfl⟩] at hk'
    cases hk'
  | enter _ _ hout _ =>
    rw [hout] at hk
    cases hk
  | leave h h' =>
    exact lt_of_le_of_lt (Pc.idle_left h') (Pc.enqueuing_left h)
  | @listed caller domain snapshot =>
    have := getDomainUrls_length snapshot domain MAX_URLS_PER_DOMAIN
    simp only [Pc.left]
    omega
  | put _ hpc =>
    subst hpc
    dsimp only
    split <;> simp [Pc.left]; omega
  | _ => simp_all [Pc.left, Pc.region]

theorem rank_lt_of_region (pc : Pc) : ∀ k ∈ pc.region, k ∉ pc.inside → ∀ k' ∈ pc.region, k' ≠ k → k.rank < k'.rank := by
  cases pc with
  | completing p lock => cases lock <;> simp [Pc.region, Pc.inside, LockName.rank]
  | cleanupGeneral => simp [Pc.region, Pc.inside, LockName.rank]
  | _ => simp [Pc.region]

/-- The locks of the back queue. -/
def lockProtocol : Protocol Pc LockName where
  region := Pc.region
  inside := Pc.inside
  moves := Pc.Moves
  ended pc := pc.ended = true
  rank := LockName.rank
  left := Pc.left
  inside_of_moves pc pc' h := by
    obtain ⟨lib, locked, now, q, reply, a, ha, rfl⟩ := h
    exact effect_inside (advance_effect ha)
  left_lt _ _ _ h hk hk' := left_lt_of_moves h hk hk'
  rank_lt := rank_lt_of_region
  region_of_ended pc h := by cases pc <;> simp_all [Pc.ended, Pc.region]

/-! ## Fair event loops -/

variable {lib : Externals} {b : Behavior (Node.step lib)} {i : Nat} {task : TaskId} {pc : Pc}

/-- A task that can go on for good goes on, and a lock that is free for good has
nobody in line. -/
structure Fair (b : Behavior (Node.step lib)) : Prop where
  runs : ∀ task i, Later (fun j => (∃ reply, b.action j = .run task reply) ∨
    ∀ reply, (b.state j).step lib (.run task reply) = none) i
  wakes : ∀ lock i, Later (fun j => ((b.state j).tasks.locks lock).holder ≠ none ∨
    ((b.state j).tasks.locks lock).waiters = []) i

/-- Whatever a task awaits, some reply lets it go on. -/
theorem advance_resumes (lib : Externals) (locked : LockId → Bool) (now : Time) (q : BackQueue) (hended : pc.ended = false) :
    ∃ reply a, advance lib locked now q pc reply = some a := by
  have hdone (h : (advance lib locked now q pc .done).isSome) : ∃ reply a, advance lib locked now q pc reply = some a :=
    ⟨.done, Option.isSome_iff_exists.mp h⟩
  cases pc with
  | excludedDomains | distinctDomains | domainUrls | domainReleaseTime => exact ⟨.raised, _, rfl⟩
  | fetching => exact ⟨.fetched .empty, _, rfl⟩
  | drained | timedOut | finished => cases hended
  | putting caller urls =>
    apply hdone
    cases urls with
    | nil => rfl
    | cons u urls =>
      simp only [advance]
      split
      · rfl
      · split <;> rfl
  | next | scan | enqueueStart | enqueue | cleanup | waitForDrain | waitLocked =>
    apply hdone
    simp only [advance]
    split <;> rfl
  | _ => exact hdone rfl

def Action.turn : Action → Option TaskId
  | .run task _ => some task
  | _ => none

theorem turn_eq_some {action : Action} : action.turn = some task ↔ ∃ reply, action = .run task reply := by
  cases action <;> simp [Action.turn]

theorem region_of_created {n n' : Node} {reply : Reply} {a : Advance} (h : Ran lib n task reply pc a n') :
    ∀ p ∈ a.created, p.region = [] ∧ p.inside = [] := by
  intro p hp
  obtain ⟨d, rfl⟩ := effect_created h.effect p hp
  exact ⟨rfl, rfl⟩

/-- A step of the event loop is one of the locking protocol. -/
theorem protocol_step {n n' : Node} {action : Action} (h : n.step lib action = some n') :
    lockProtocol.Step n.tasks action.turn n'.tasks := by
  have hsame (htasks : n'.tasks = n.tasks) : lockProtocol.Step n.tasks none n'.tasks := by
    have hspawn : n'.tasks = n.tasks.spawn [] := by
      rw [htasks, Tasks.spawn, List.append_nil]
    rw [hspawn]
    exact .spawned (by simp)
  cases action with
  | run task reply =>
    obtain ⟨pc, a, hran, ha⟩ := runTask_advance h
    rw [hran.tasks]
    exact .ran hran.at_pc hran.entitled ⟨lib, _, _, _, _, a, ha, rfl⟩ (region_of_created hran)
  | tick now =>
    simp only [Node.step] at h
    split at h <;> cases h
    exact hsame rfl
  | grant lock => cases h; exact .granted lock
  | loop => cases h; exact .spawned (by simp [lockProtocol, Pc.region, Pc.inside])
  | waitForDrain timeout =>
    simp only [Node.step] at h
    split at h <;> cases h
    exact .spawned (by simp [lockProtocol, Pc.region, Pc.inside])
  | drain | setBuckets | setReady => cases h; exact hsame rfl

/-- A task that has its locks and has not ended can be resumed. -/
theorem resumes_of_ready {n : Node} (h : lockProtocol.Ready n.tasks task) :
    ∃ reply, n.step lib (.run task reply) ≠ none := by
  obtain ⟨pc, hpc, hended, hentitled⟩ := h
  obtain ⟨reply, a, ha⟩ := advance_resumes lib (fun lock => (n.tasks.locks (.domain lock)).locked) n.now n.queue
    (show pc.ended = false by simpa [lockProtocol] using hended)
  refine ⟨reply, ?_⟩
  have hentitled : n.tasks.entitled Pc.region task pc = true := hentitled
  simp [Node.step, Node.runTask, hpc, hentitled, ha]

def schedule (h₀ : b.state 0 = .initial) (hfair : Fair b) : lockProtocol.Schedule where
  tasks i := (b.state i).tasks
  turn i := (b.action i).turn
  step i := protocol_step (b.next i)
  lined := by rw [h₀]; exact Node.initial_disciplined.lined
  held := by rw [h₀]; exact Node.initial_disciplined.held
  fair task i := by
    refine (hfair.runs task i).imp (fun j _ h => ?_)
    obtain hrun | hstuck := h
    · exact .inl (turn_eq_some.mpr hrun)
    · refine .inr (fun hready => ?_)
      obtain ⟨reply, hsome⟩ : ∃ reply, (b.state j).step lib (.run task reply) ≠ none := resumes_of_ready hready
      exact hsome (hstuck reply)
  wakes := hfair.wakes

/-! ## An idle worker -/

/-- A drained worker: the first task is a handler loop about to look for work, the
others have ended. -/
structure Node.Idle (n : Node) : Prop where
  draining : n.queue.draining = true
  entries : n.queue.queues.entries = []
  pcs : n.tasks.pcs.head? = some .next
  ended : ∀ pc ∈ n.tasks.pcs.tail, pc.ended = true

/-- The points of the loop while time goes on. -/
def idlePc : Nat → Pc
  | 2 => .scan
  | 3 => .sleeping
  | _ => .next

def idleAction (n : Node) (i : Nat) : Action :=
  if i % 4 = 0 then .tick (n.now + (i / 4 + 1 : Nat)) else .run 0 .done

def idleState (n : Node) (i : Nat) : Node :=
  { n with
    now := n.now + ((i + 3) / 4 : Nat)
    tasks := ⟨fun k => if k = .general ∧ i % 4 = 2 then ⟨some 0, []⟩ else {}, idlePc (i % 4) :: n.tasks.pcs.tail⟩ }

section

variable {n : Node}

theorem Node.Idle.locks (h : n.Idle) (hd : n.Disciplined) (k : LockName) : n.tasks.locks k = {} := by
  have hline : (n.tasks.locks k).line = [] := by
    rw [List.eq_nil_iff_forall_not_mem]
    intro u hu
    obtain ⟨pc, hpc, hregion⟩ := (hd.lined.mem k u).mp hu
    obtain ⟨rest, hpcs⟩ := List.head?_eq_some_iff.mp h.pcs
    have hended := h.ended
    rw [hpcs] at hpc hended
    obtain rfl | hmem := List.mem_cons.mp (List.mem_of_getElem? hpc)
    · cases hregion
    · have hnone : pc.region = [] := lockProtocol.region_of_ended pc (hended pc hmem)
      rw [hnone] at hregion
      cases hregion
  generalize n.tasks.locks k = m at hline
  obtain ⟨holder, waiters⟩ := m
  cases holder with
  | none => simpa [Mutex.line] using hline
  | some u => simp [Mutex.line] at hline

theorem idleState_zero (h : n.Idle) (hd : n.Disciplined) : idleState n 0 = n := by
  obtain ⟨rest, hpcs⟩ := List.head?_eq_some_iff.mp h.pcs
  obtain ⟨q, ⟨locks, pcs⟩, now⟩ := n
  have hlocks := h.locks hd
  simp only at hpcs hlocks
  subst hpcs
  simp only [idleState, idlePc, List.tail_cons, Node.mk.injEq, true_and]
  refine ⟨?_, by simp⟩
  congr 1
  funext k
  simp [hlocks k]

/-- One round of an idle loop: a tick, no work, a nap. -/
theorem idle_step (h : n.Idle) (i : Nat) : (idleState n i).step lib (idleAction n i) = some (idleState n (i + 1)) := by
  have hscan (locked : LockId → Bool) (t : Time) : n.queue.scan t locked = .nothing := by
    simp [BackQueue.scan, h.entries, BackQueue.scanEntries]
  have hcases : i % 4 = 0 ∨ i % 4 = 1 ∨ i % 4 = 2 ∨ i % 4 = 3 := by omega
  obtain hr | hr | hr | hr := hcases
  · have hnext : (i + 1) % 4 = 1 := by omega
    have hnow : (i + 1 + 3) / 4 = i / 4 + 1 := by omega
    have hnow' : (i + 3) / 4 ≤ i / 4 + 1 := by omega
    have hlate : n.now + ((i + 3) / 4 : Nat) ≤ n.now + (i / 4 + 1 : Nat) := by gcongr
    simp only [Node.step, idleAction, hr, if_true, idleState]
    rw [if_pos hlate]
    simp [idlePc, hnext, hnow]
  · have hnext : (i + 1) % 4 = 2 := by omega
    have hnow : (i + 1 + 3) / 4 = (i + 3) / 4 := by omega
    simp [Node.step, Node.runTask, idleAction, idleState, idlePc, hr, hnext, hnow, advance, Tasks.entitled, Pc.region,
      Tasks.move, Tasks.spawn, h.draining, Mutex.acquire]
  · have hnext : (i + 1) % 4 = 3 := by omega
    have hnow : (i + 1 + 3) / 4 = (i + 3) / 4 := by omega
    simp [Node.step, Node.runTask, idleAction, idleState, idlePc, hr, hnext, hnow, advance, Tasks.entitled, Pc.region,
      Tasks.move, Tasks.spawn, hscan, Mutex.release]
    funext k
    by_cases hk : k = .general <;> simp [hk]
  · have hnext : (i + 1) % 4 = 0 := by omega
    have hnow : (i + 1 + 3) / 4 = (i + 3) / 4 := by omega
    simp [Node.step, Node.runTask, idleAction, idleState, idlePc, hr, hnext, hnow, advance, Tasks.entitled, Pc.region,
      Tasks.move, Tasks.spawn]

/-- The run of an idle worker. -/
def idle (lib : Externals) (h : n.Idle) : Behavior (Node.step lib) where
  state := idleState n
  action := idleAction n
  next := idle_step h

theorem idle_fair (lib : Externals) (h : n.Idle) : Fair (idle lib h) where
  runs task i := by
    cases task with
    | zero =>
      exact ⟨4 * i + 1, by omega, .inl ⟨.done, by simp [idle, idleAction]⟩⟩
    | succ task =>
      refine .now (.inr (fun reply => ?_))
      cases hpc : n.tasks.pcs.tail[task]? with
      | none => simp [idle, idleState, Node.step, Node.runTask, hpc]
      | some pc =>
        have hended := h.ended pc (List.mem_of_getElem? hpc)
        cases pc <;> cases hended <;> simp [idle, idleState, Node.step, Node.runTask, hpc, advance]
  wakes lock i := by
    refine .now (.inr ?_)
    simp only [idle, idleState]
    split <;> rfl

theorem Fair.prepend {b b' : Behavior (Node.step lib)} {k : Nat} (h : Fair b)
    (htail : ∀ i, b'.state (k + i) = b.state i ∧ b'.action (k + i) = b.action i) : Fair b' where
  runs task i := by
    obtain ⟨j, hj, hrun⟩ := h.runs task i
    exact ⟨k + j, by omega, by simpa only [(htail j).1, (htail j).2] using hrun⟩
  wakes lock i := by
    obtain ⟨j, hj, hwoken⟩ := h.wakes lock i
    exact ⟨k + j, by omega, by simpa only [(htail j).1] using hwoken⟩

/-- A run that leaves the worker idle goes on for ever. -/
theorem exists_fair (lib : Externals) (as : List Action) (hrun : run (Node.step lib) .initial as = some n) (h : n.Idle) :
    ∃ b : Behavior (Node.step lib), b.state 0 = .initial ∧ Fair b ∧ (∀ T, ∃ i, T ≤ (b.state i).now) ∧
      (∀ i, i < as.length → as[i]? = some (b.action i)) ∧ b.state as.length = n := by
  have hguarded : run (guarded (Node.step lib) (fun _ _ => true)) .initial as = some n := by
    have he : guarded (Node.step lib) (fun _ _ => true) = Node.step lib := by
      funext s a
      simp [guarded]
    rw [he]
    exact hrun
  have hreaches : Reaches (Node.step lib) Free .initial n := reaches_of_run (fun _ _ _ => trivial) hguarded
  have hzero := idleState_zero h (sound_of_reaches hreaches).disciplined
  obtain ⟨b, hstart, hhead, htail⟩ := (idle lib h).prepend (hrun.trans (congrArg some hzero.symm))
  refine ⟨b, hstart, (idle_fair lib h).prepend htail, fun T => ?_, hhead, ?_⟩
  · obtain ⟨k, hk⟩ := exists_nat_ge (T - n.now)
    refine ⟨as.length + 4 * k, ?_⟩
    have hdiv : (4 * k + 3) / 4 = k := by omega
    rw [(htail (4 * k)).1]
    simp only [idle, idleState, hdiv]
    linarith
  · have hstate := (htail 0).1
    rw [Nat.add_zero] at hstate
    exact hstate.trans hzero

end

/-- In a fair run of the event loop every task that has not ended goes on. -/
theorem every_task_runs (lib : Externals) (b : Behavior (Node.step lib)) (h₀ : b.state 0 = .initial) (hfair : Fair b)
    (task : TaskId) (pc : Pc) (i : Nat) (hpc : (b.state i).tasks.pcs[task]? = some pc) (hended : pc.ended = false) :
    ∃ j, i ≤ j ∧ ∃ reply, b.action j = .run task reply := by
  have hlater := (schedule h₀ hfair).later_turn hpc (by simpa [lockProtocol] using hended)
  exact hlater.imp (fun j _ hturn => turn_eq_some.mp hturn)

/-- A handler crawls a page while somebody waits for the drain. -/
def drainingRun : List Action :=
  [.setBuckets [⟨1, .idle, some "a", none, 0⟩], .loop, .run 0 .done, .run 0 .done, .run 0 (.domains []),
    .run 0 (.urls [page1]), .run 0 (.urls [page1]), .run 0 .done, .run 0 (.releaseTime none), .run 0 .done,
    .drain, .waitForDrain 10, .run 0 .done, .run 0 .done, .run 0 .done, .run 0 .done, .run 0 .done,
    .run 0 (.fetched .empty), .run 0 .done, .run 0 .done, .run 2 .done, .run 2 .done, .run 2 .done, .run 2 .done,
    .run 1 .done, .run 1 .done]

theorem exists_drainingRun : ∃ n, run (Node.step site) .initial drainingRun = some n ∧ n.Idle := by
  have htest : (run (Node.step site) .initial drainingRun).any (fun n => n.queue.draining && n.queue.queues.entries.isEmpty &&
      decide (n.tasks.pcs = [.next, .drained, .finished])) = true := by decide +kernel
  obtain ⟨n, hrun, htest⟩ := (Option.any_eq_true _ _).mp htest
  simp only [Bool.and_eq_true, List.isEmpty_iff, decide_eq_true_eq] at htest
  obtain ⟨⟨hdraining, hentries⟩, hpcs⟩ := htest
  refine ⟨n, hrun, hdraining, hentries, by rw [hpcs]; rfl, ?_⟩
  rw [hpcs]
  simp [Pc.ended]

/-- The handler of an idle worker looks for work again and again. -/
theorem every_task_runs_site : ∃ b : Behavior (Node.step site), b.state 0 = .initial ∧ Fair b ∧
    ∃ i, (b.state i).tasks.pcs[0]? = some .next ∧ ∃ j, i ≤ j ∧ ∃ reply, b.action j = .run 0 reply := by
  obtain ⟨n, hrun, hidle⟩ := exists_drainingRun
  obtain ⟨b, hstart, hfair, -, -, hstate⟩ := exists_fair site drainingRun hrun hidle
  have hpc : (b.state drainingRun.length).tasks.pcs[0]? = some .next := by
    rw [hstate, ← List.head?_eq_getElem?]
    exact hidle.pcs
  exact ⟨b, hstart, hfair, drainingRun.length, hpc, every_task_runs site b hstart hfair 0 .next _ hpc rfl⟩

end Linksurf
