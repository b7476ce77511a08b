import Linksurf.Downloader

/-!
# What a task can do between two awaits

The transitions of `advance` sorted by their effect, and what a step of the
event loop is. Every later invariant is read off these cases.
-/
namespace Linksurf

open Monitor

/-! ## Kinds of program points -/

/-- Points that carry no payload, no admission and no cleanup. -/
def Pc.idle : Pc → Bool
  | .next | .beforeScan | .scan | .sleeping | .enqueueStart | .finished => true
  | _ => false

/-- Inside `_enqueue_new_domain` after its draining check. -/
def Pc.enqueuing : Pc → Bool
  | .enqueue _ | .excludedDomains _ _ | .distinctDomains _ _ _ | .domainUrls _ _ | .putting _ _
  | .domainReleaseTime _ _ _ => true
  | _ => false

/-- In line for the check of `wait_for_drain`, or about to make it. -/
def Pc.checkingDrain : Pc → Bool
  | .waitLocked _ => true
  | _ => false

/-- The payload that `next` returned and `complete` has not seen yet. -/
def Pc.payload? : Pc → Option Payload
  | .handed p _ | .started p _ | .domainLock p _ | .fetching p _ | .reporting p _ _ | .completing p _ => some p
  | _ => none

/-- The payload still to fetch, or being fetched, with the lock handed out for it. -/
def Pc.toFetch? : Pc → Option (Payload × LockId)
  | .handed p l | .started p l | .domainLock p l | .fetching p l => some (p, l)
  | _ => none

/-- The domain a cleanup task is about. -/
def Pc.cleaning? : Pc → Option String
  | .cleanup d | .cleanupDomain d _ | .cleanupGeneral d _ => some d
  | _ => none

theorem Pc.idle_payload {pc : Pc} (h : pc.idle) : pc.payload? = none := by
  cases pc <;> simp_all [Pc.idle, Pc.payload?]

theorem Pc.enqueuing_payload {pc : Pc} (h : pc.enqueuing) : pc.payload? = none := by
  cases pc <;> simp_all [Pc.enqueuing, Pc.payload?]

theorem Pc.enqueuing_region {pc : Pc} (h : pc.enqueuing) : LockName.general ∈ pc.region := by
  cases pc <;> simp_all [Pc.enqueuing, Pc.region]

@[simp] theorem Caller.return_idle (c : Caller) (b : Bool) : (c.return b).idle := by
  cases c <;> cases b <;> rfl

@[simp] theorem Caller.raise_idle (c : Caller) : c.raise.idle := by cases c <;> rfl

/-! ## Effects -/

/-- The effects of one step of a task at a point with a reply. -/
inductive Effect (lib : Externals) (locked : LockId → Bool) (now : Time) (q : BackQueue) :
    Pc → Reply → Advance → Prop
  | idle {pc reply pc'} (h : pc.idle) (h' : pc'.idle) : Effect lib locked now q pc reply ⟨q, pc', []⟩
  | enter {pc} (caller) (h : pc.idle) (hout : pc.region = []) (hopen : q.draining = false) :
    Effect lib locked now q pc .done ⟨q, .enqueue caller, []⟩
  | leave {pc reply pc'} (h : pc.enqueuing) (h' : pc'.idle) : Effect lib locked now q pc reply ⟨q, pc', []⟩
  | current {caller} (h : q.queues.size < MAX_ACTIVE_DOMAINS) :
    Effect lib locked now q (.enqueue caller) .done ⟨q, .excludedDomains caller q.queues.keys, []⟩
  | fetchable {caller current reply} (excluded) :
    Effect lib locked now q (.excludedDomains caller current) reply
      ⟨q, .distinctDomains caller (current ++ excluded) q.fetchableBuckets, []⟩
  | chosen {caller excluded fetchable snapshot domain}
    (h : domain ∈ getDistinctDomains snapshot excluded fetchable 1) :
    Effect lib locked now q (.distinctDomains caller excluded fetchable) (.urls snapshot)
      ⟨q, .domainUrls caller domain, []⟩
  | listed {caller domain snapshot} :
    Effect lib locked now q (.domainUrls caller domain) (.urls snapshot)
      ⟨q, .putting caller (getDomainUrls snapshot domain MAX_URLS_PER_DOMAIN), []⟩
  | put {caller u urls url pc'} (hurl : lib.url u.address = some url)
    (hpc : pc' = if (q.put ⟨url, u.priority⟩).releaseTimes.get? url.domain = none
      then .domainReleaseTime caller url.domain urls else .putting caller urls) :
    Effect lib locked now q (.putting caller (u :: urls)) .done ⟨q.put ⟨url, u.priority⟩, pc', []⟩
  | lookedUp {caller domain urls reply} (time) (h : time = now ∨ reply = .releaseTime (some time)) :
    Effect lib locked now q (.domainReleaseTime caller domain urls) reply
      ⟨q.setReleaseTime domain time, .putting caller urls, []⟩
  | take {domain payload rest lock} (h : q.scan now locked = .found domain payload rest lock) :
    Effect lib locked now q .scan .done ⟨q.take lib now domain rest, .handed payload lock, []⟩
  | stored {payload lock} :
    Effect lib locked now q (.handed payload lock) .done ⟨q, .started payload lock, []⟩
  | abandoned {payload lock} :
    Effect lib locked now q (.handed payload lock) .raised ⟨q, .completing payload none, []⟩
  | queued {payload lock} :
    Effect lib locked now q (.started payload lock) .done ⟨q, .domainLock payload lock, []⟩
  | fetch {payload lock} :
    Effect lib locked now q (.domainLock payload lock) .done ⟨q, .fetching payload lock, []⟩
  | fetched {payload lock} (fetched) :
    Effect lib locked now q (.fetching payload lock) (.fetched fetched) ⟨q, .reporting payload lock fetched, []⟩
  | report {payload lock fetched} :
    Effect lib locked now q (.reporting payload lock fetched) .done
      ⟨q.setReleaseTime payload.url.domain (now + fetched.delaySeconds), .completing payload (some lock),
        if q.cleanupDue payload.url.domain fetched then [.cleanup payload.url.domain] else []⟩
  | complete {payload lock} :
    Effect lib locked now q (.completing payload lock) .done ⟨q.complete lib payload, .next, []⟩
  | noCleanup {domain} (h : q.locks.get? domain = none) :
    Effect lib locked now q (.cleanup domain) .done ⟨q, .finished, []⟩
  | cleanup {domain lock} (h : q.locks.get? domain = some lock) :
    Effect lib locked now q (.cleanup domain) .done ⟨q, .cleanupDomain domain lock, []⟩
  | cleanupDomain {domain lock} :
    Effect lib locked now q (.cleanupDomain domain lock) .done ⟨q, .cleanupGeneral domain lock, []⟩
  | removeDomain {domain lock} :
    Effect lib locked now q (.cleanupGeneral domain lock) .done ⟨q.removeDomain domain, .enqueueStart, []⟩
  | waitForDrain {deadline} :
    Effect lib locked now q (.waitForDrain deadline) .done ⟨q, .waitLocked deadline, []⟩
  | timedOut {deadline} :
    Effect lib locked now q (.waitForDrain deadline) .done ⟨q, .timedOut, []⟩
  | waitMore {deadline} :
    Effect lib locked now q (.waitLocked deadline) .done ⟨q, .waitSleeping deadline, []⟩
  | waitAgain {deadline} :
    Effect lib locked now q (.waitSleeping deadline) .done ⟨q, .waitForDrain deadline, []⟩
  | drained {deadline} (h : q.hasLocalWork = false) :
    Effect lib locked now q (.waitLocked deadline) .done ⟨q, .drained, []⟩

theorem advance_effect {lib : Externals} {locked : LockId → Bool} {now : Time} {q : BackQueue}
    {pc : Pc} {reply : Reply} {a : Advance} (h : advance lib locked now q pc reply = some a) :
    Effect lib locked now q pc reply a := by
  unfold advance at h
  split at h
  · split at h <;> cases h
    · rename_i hopen
      exact .enter .next rfl rfl (by simpa using hopen.2)
    · exact .idle rfl rfl
  · cases h; exact .idle rfl rfl
  · split at h <;> cases h
    · rename_i hscan; exact .take hscan
    · exact .idle rfl rfl
    · exact .idle rfl rfl
  · cases h; exact .idle rfl rfl
  · split at h <;> cases h
    · exact .idle rfl rfl
    · rename_i hopen
      exact .enter .cleanup rfl rfl (by simpa using hopen)
  · split at h <;> cases h
    · exact .leave rfl (by simp)
    · rename_i hsize; exact .current (Nat.lt_of_not_le hsize)
  · obtain ⟨excluded, -, he⟩ := Option.map_eq_some_iff.mp h
    subst he
    split
    · exact .leave rfl (by simp)
    · exact .fetchable excluded
  · split at h <;> cases h
    · exact .leave rfl (by simp)
    · rename_i hlist; exact .chosen (by rw [hlist]; simp)
  · cases h; exact .leave rfl (by simp)
  · split at h <;> cases h
    · exact .leave rfl (by simp)
    · rename_i hlist; rw [← hlist]; exact .listed
  · cases h; exact .leave rfl (by simp)
  · cases h; exact .leave rfl (by simp)
  · split at h
    · cases h; exact .leave rfl (by simp)
    · rename_i hurl
      dsimp only at h
      split at h <;> rename_i hnone <;> cases h
      · exact .put hurl (if_pos hnone).symm
      · exact .put hurl (if_neg hnone).symm
  · cases h
    split
    · exact .lookedUp now (.inl rfl)
    · exact .lookedUp _ (.inr rfl)
  · cases h; exact .lookedUp now (.inl rfl)
  · cases h; exact .lookedUp now (.inl rfl)
  · cases h; exact .stored
  · cases h; exact .abandoned
  · cases h; exact .queued
  · cases h; exact .fetch
  · cases h; exact .fetched _
  · cases h; exact .report
  · cases h; exact .complete
  · split at h <;> cases h
    · exact .noCleanup (by assumption)
    · exact .cleanup (by assumption)
  · cases h; exact .cleanupDomain
  · cases h; exact .removeDomain
  · split at h <;> cases h
    · exact .waitForDrain
    · exact .timedOut
  · split at h <;> cases h
    · exact .waitMore
    · rename_i hwork; exact .drained (by simpa using hwork)
  · cases h; exact .waitAgain
  · cases h

/-- However the cache answers, the release time is set and the loop of puts goes on. -/
theorem advance_releaseTime {lib : Externals} {locked : LockId → Bool} {now : Time} {q : BackQueue}
    {caller : Caller} {domain : String} {urls : List UrlModel} {reply : Reply} {a : Advance}
    (h : advance lib locked now q (.domainReleaseTime caller domain urls) reply = some a) :
    ∃ time, a = ⟨q.setReleaseTime domain time, .putting caller urls, []⟩ := by
  cases reply with
  | releaseTime time => cases time <;> exact ⟨_, (Option.some.inj h).symm⟩
  | raised => exact ⟨_, (Option.some.inj h).symm⟩
  | _ => cases h

/-! ## Steps of the event loop -/

/-- A task's step: it was entitled to run, and its move had an effect. -/
structure Ran (lib : Externals) (n : Node) (task : TaskId) (reply : Reply) (pc : Pc) (a : Advance)
    (n' : Node) : Prop where
  at_pc : n.tasks.pcs[task]? = some pc
  entitled : n.tasks.entitled Pc.region task pc = true
  effect : Effect lib (fun lock => (n.tasks.locks (.domain lock)).locked) n.now n.queue pc reply a
  queue : n'.queue = a.queue
  tasks : n'.tasks = (n.tasks.move Pc.region task pc a.pc).spawn a.created
  now : n'.now = n.now

theorem runTask_advance {lib : Externals} {n n' : Node} {task : TaskId} {reply : Reply}
    (h : n.runTask lib task reply = some n') : ∃ pc a, Ran lib n task reply pc a n' ∧
      advance lib (fun lock => (n.tasks.locks (.domain lock)).locked) n.now n.queue pc reply = some a := by
  obtain ⟨pc, hpc, h⟩ := Option.bind_eq_some_iff.mp h
  split at h
  · rename_i he
    obtain ⟨a, ha, h⟩ := Option.bind_eq_some_iff.mp h
    cases h
    exact ⟨pc, a, ⟨hpc, he, advance_effect ha, rfl, rfl, rfl⟩, ha⟩
  · cases h

theorem runTask_ran {lib : Externals} {n n' : Node} {task : TaskId} {reply : Reply}
    (h : n.runTask lib task reply = some n') : ∃ pc a, Ran lib n task reply pc a n' := by
  obtain ⟨pc, a, hran, -⟩ := runTask_advance h
  exact ⟨pc, a, hran⟩

theorem effect_created {lib : Externals} {locked : LockId → Bool} {now : Time} {q : BackQueue} {pc : Pc} {reply : Reply}
    {a : Advance} (h : Effect lib locked now q pc reply a) : ∀ p ∈ a.created, ∃ d, p = .cleanup d := by
  cases h with
  | report =>
    intro p hp
    dsimp only at hp
    split at hp
    · exact ⟨_, List.mem_singleton.mp hp⟩
    · cases hp
  | _ => simp

/-- A step takes its task from one count to another; the tasks it creates are
cleanups. -/
theorem Ran.countP {lib : Externals} {n n' : Node} {task : TaskId} {reply : Reply} {pc : Pc} {a : Advance}
    (h : Ran lib n task reply pc a n') (f : Pc → Bool) (hf : ∀ d, f (.cleanup d) = false) :
    n'.tasks.pcs.countP f + (if f pc then 1 else 0) = n.tasks.pcs.countP f + if f a.pc then 1 else 0 := by
  have hcreated : a.created.countP f = 0 := by
    rw [List.countP_eq_zero]
    intro p hp
    obtain ⟨d, rfl⟩ := effect_created h.effect p hp
    simp [hf]
  rw [h.tasks]
  change List.countP f (_ ++ a.created) + _ = _
  rw [List.countP_append, hcreated, Nat.add_zero]
  exact Tasks.countP_move h.at_pc f

/-- Every task after a step: the one that ran, another one, or a new cleanup. -/
theorem Ran.pcs {lib : Externals} {n n' : Node} {task : TaskId} {reply : Reply} {pc : Pc} {a : Advance}
    (h : Ran lib n task reply pc a n') {u : TaskId} {p : Pc} (hp : n'.tasks.pcs[u]? = some p) :
    (u = task ∧ p = a.pc) ∨ (u ≠ task ∧ n.tasks.pcs[u]? = some p) ∨ ∃ d, p = .cleanup d := by
  rw [h.tasks] at hp
  obtain hp | hp := Tasks.pcs_spawn hp
  · by_cases hu : u = task
    · subst hu
      rw [Tasks.pcs_move_same h.at_pc] at hp
      exact .inl ⟨rfl, (Option.some.inj hp).symm⟩
    · rw [Tasks.pcs_move_other hu] at hp
      exact .inr (.inl ⟨hu, hp⟩)
  · exact .inr (.inr (effect_created h.effect p hp))

theorem Ran.mem_pcs {lib : Externals} {n n' : Node} {task : TaskId} {reply : Reply} {pc : Pc} {a : Advance}
    (h : Ran lib n task reply pc a n') {p : Pc} (hp : p ∈ n'.tasks.pcs) :
    p = a.pc ∨ p ∈ n.tasks.pcs ∨ ∃ d, p = .cleanup d := by
  obtain ⟨u, hu⟩ := List.getElem?_of_mem hp
  obtain ⟨-, he⟩ | ⟨-, hu⟩ | hd := h.pcs hu
  · exact .inl he
  · exact .inr (.inl (List.mem_of_getElem? hu))
  · exact .inr (.inr hd)

/-- What the actions of other parties leave alone. -/
structure SameWork (q q' : BackQueue) : Prop where
  inFlightBuckets : q'.inFlightBuckets = q.inFlightBuckets
  queues : q'.queues = q.queues
  releaseTimes : q'.releaseTimes = q.releaseTimes
  locks : q'.locks = q.locks
  nextLock : q'.nextLock = q.nextLock
  draining : q.draining = true → q'.draining = true

theorem SameWork.refl (q : BackQueue) : SameWork q q := ⟨rfl, rfl, rfl, rfl, rfl, id⟩

/-- A step of the event loop: a task ran, the world outside changed, a lock
woke its first in line, or a task was created. -/
inductive Stepped (lib : Externals) (n : Node) (n' : Node) : Prop
  | ran {task reply pc a} (h : Ran lib n task reply pc a n')
  | outside (queue : SameWork n.queue n'.queue) (tasks : n'.tasks = n.tasks) (now : n.now ≤ n'.now)
  | granted (lock : LockName) (h : n' = { n with tasks := n.tasks.grant lock })
  | looped (h : n' = { n with tasks := n.tasks.spawn [.next] })
  | waiting (deadline : Time) (draining : n.queue.draining = true)
    (h : n' = { n with tasks := n.tasks.spawn [.waitForDrain deadline] })

theorem step_stepped {lib : Externals} {n n' : Node} {action : Action} (h : n.step lib action = some n') :
    Stepped lib n n' := by
  cases action with
  | tick now =>
    simp only [Node.step] at h
    split at h
    · cases h; exact .outside (.refl _) rfl (by assumption)
    · cases h
  | run task reply =>
    obtain ⟨pc, a, hran⟩ := runTask_ran h
    exact .ran hran
  | grant lock => cases h; exact .granted lock rfl
  | loop => cases h; exact .looped rfl
  | waitForDrain timeout =>
    simp only [Node.step] at h
    split at h
    · cases h; exact .waiting _ (by assumption) rfl
    · cases h
  | drain => cases h; exact .outside ⟨rfl, rfl, rfl, rfl, rfl, fun _ => rfl⟩ rfl (le_refl _)
  | setBuckets assignments => cases h; exact .outside ⟨rfl, rfl, rfl, rfl, rfl, id⟩ rfl (le_refl _)
  | setReady ready => cases h; exact .outside ⟨rfl, rfl, rfl, rfl, rfl, id⟩ rfl (le_refl _)

/-! ## Lock discipline -/

section

variable {lib : Externals} {locked : LockId → Bool} {now : Time} {q : BackQueue} {pc : Pc}
  {reply : Reply} {a : Advance}

theorem Pc.idle_inside (h : pc.idle) : pc.inside = [] := by
  cases pc <;> simp_all [Pc.idle, Pc.inside]

theorem effect_inside (h : Effect lib locked now q pc reply a) :
    ∀ k ∈ a.pc.inside, k ∈ pc.region ∧ k ∈ a.pc.region := by
  cases h with
  | idle _ h' => simp [Pc.idle_inside h']
  | leave _ h' => simp [Pc.idle_inside h']
  | put _ hpc => subst hpc; dsimp only; split <;> simp [Pc.inside, Pc.region]
  | abandoned => simp [Pc.inside]
  | _ => simp [Pc.inside, Pc.region]

end

/-- Every line holds the tasks of its region, and blocks run under their locks. -/
structure Node.Disciplined (n : Node) : Prop where
  lined : n.tasks.Lined Pc.region
  held : n.tasks.Held Pc.inside

theorem Node.initial_disciplined : Node.initial.Disciplined := ⟨Tasks.empty_lined, Tasks.empty_held⟩

theorem Node.Disciplined.step {lib : Externals} {n n' : Node} (h : n.Disciplined)
    (hstep : Stepped lib n n') : n'.Disciplined := by
  cases hstep with
  | ran hran =>
    have hnew := effect_created hran.effect
    constructor
    · rw [hran.tasks]
      exact (h.lined.move hran.at_pc hran.entitled).spawn
        (fun p hp => by obtain ⟨d, rfl⟩ := hnew p hp; rfl)
    · rw [hran.tasks]
      exact (h.held.move hran.at_pc hran.entitled (effect_inside hran.effect)).spawn
        (fun p hp => by obtain ⟨d, rfl⟩ := hnew p hp; rfl)
  | outside _ htasks _ => exact ⟨htasks ▸ h.lined, htasks ▸ h.held⟩
  | granted lock he => subst he; exact ⟨h.lined.grant, h.held.grant⟩
  | looped he => subst he; exact ⟨h.lined.spawn (by simp [Pc.region]), h.held.spawn (by simp [Pc.inside])⟩
  | waiting _ _ he => subst he; exact ⟨h.lined.spawn (by simp [Pc.region]), h.held.spawn (by simp [Pc.inside])⟩

end Linksurf
