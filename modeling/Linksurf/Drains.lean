import Linksurf.Progress
import Linksurf.Refills

/-!
# Every drain comes to its end

After `drain` a fair event loop with a Downloader loop finishes its local work:
enqueues that had begun end, payloads handed out are completed, cleanups end,
and then nothing but time keeps a queued payload from being handed out.
-/
namespace Linksurf

open Monitor Execution
open Dicts (Dict)

/-! ## What is left to do -/

/-- Steps of a payload that was handed out until `complete` has seen it. -/
def Pc.toComplete : Pc → Nat
  | .handed _ _ => 6
  | .started _ _ => 5
  | .domainLock _ _ => 4
  | .fetching _ _ => 3
  | .reporting _ _ _ => 2
  | .completing _ _ => 1
  | _ => 0

/-- Steps of a cleanup until its domain is removed. -/
def Pc.toRemove : Pc → Nat
  | .cleanup _ => 3
  | .cleanupDomain _ _ => 2
  | .cleanupGeneral _ _ => 1
  | _ => 0

/-- Steps of an enqueue that has begun. -/
def Pc.toEnqueue (pc : Pc) : Nat := if pc.enqueuing then pc.left else 0

/-- A queued payload has one step more before it than one just handed out. -/
def Node.load (n : Node) : Nat := 7 * Dict.total List.length n.queue.queues + n.tasks.weight Pc.toComplete

variable {lib : Externals} {locked : LockId → Bool} {now : Time} {q : BackQueue} {pc : Pc}
  {reply : Reply} {a : Advance} {n n' : Node} {action : Action} {task : TaskId}

theorem Pc.idle_toComplete (h : pc.idle) : pc.toComplete = 0 := by
  cases pc <;> simp_all [Pc.idle, Pc.toComplete]

theorem Pc.toRemove_eq_zero : pc.toRemove = 0 ↔ pc.cleaning? = none := by
  cases pc <;> simp [Pc.toRemove, Pc.cleaning?]

theorem Pc.idle_cleaning (h : pc.idle) : pc.cleaning? = none := by
  cases pc <;> simp_all [Pc.idle, Pc.cleaning?]

theorem Ran.weight (h : Ran lib n task reply pc a n') (f : Pc → Nat) :
    n'.tasks.weight f + f pc = n.tasks.weight f + f a.pc + (a.created.map f).sum := by
  rw [h.tasks, Tasks.weight_spawn]
  have hmove : (n.tasks.move Pc.region task pc a.pc).weight f + f pc = n.tasks.weight f + f a.pc := Tasks.weight_move f h.at_pc
  omega

/-- A step of a task, or one that leaves the work alone. -/
theorem step_cases (h : n.step lib action = some n') :
    (∃ task reply pc a, action = .run task reply ∧ Ran lib n task reply pc a n' ∧
      advance lib (fun lock => (n.tasks.locks (.domain lock)).locked) n.now n.queue pc reply = some a) ∨
    (SameWork n.queue n'.queue ∧ (∀ pc ∈ n.tasks.pcs, pc ∈ n'.tasks.pcs) ∧
      ∀ f : Pc → Nat, f .next = 0 → (∀ deadline, f (.waitForDrain deadline) = 0) → n'.tasks.weight f = n.tasks.weight f) := by
  cases action with
  | run task reply =>
    obtain ⟨pc, a, hran, ha⟩ := runTask_advance h
    exact .inl ⟨task, reply, pc, a, rfl, hran, ha⟩
  | tick now =>
    simp only [Node.step] at h
    split at h <;> cases h
    exact .inr ⟨.refl _, fun _ => id, fun _ _ _ => rfl⟩
  | grant lock => cases h; exact .inr ⟨.refl _, fun _ => id, fun _ _ _ => rfl⟩
  | loop =>
    cases h
    refine .inr ⟨.refl _, fun p hp => List.mem_append_left _ hp, fun f hnext _ => ?_⟩
    rw [Tasks.weight_spawn]
    simp [hnext]
  | waitForDrain timeout =>
    simp only [Node.step] at h
    split at h <;> cases h
    refine .inr ⟨.refl _, fun p hp => List.mem_append_left _ hp, fun f _ hwait => ?_⟩
    rw [Tasks.weight_spawn]
    simp [hwait]
  | drain => cases h; exact .inr ⟨⟨rfl, rfl, rfl, rfl, rfl, fun _ => rfl⟩, fun _ => id, fun _ _ _ => rfl⟩
  | setBuckets | setReady => cases h; exact .inr ⟨⟨rfl, rfl, rfl, rfl, rfl, id⟩, fun _ => id, fun _ _ _ => rfl⟩

/-! ## What a step leaves to do -/

/-- After `drain` no enqueue begins. -/
theorem advance_toEnqueue (h : advance lib locked now q pc reply = some a) (hdraining : q.draining = true) :
    a.pc.toEnqueue ≤ pc.toEnqueue ∧ (pc.enqueuing → a.pc.toEnqueue < pc.toEnqueue) := by
  by_cases hpc : pc.enqueuing
  · have hlt : a.pc.toEnqueue < pc.toEnqueue := by
      rw [Pc.toEnqueue, Pc.toEnqueue, if_pos hpc]
      split
      · rename_i ha
        exact left_lt_of_moves ⟨lib, locked, now, q, reply, a, h, rfl⟩ (Pc.enqueuing_region hpc) (Pc.enqueuing_region ha)
      · exact lt_of_lt_of_le Nat.zero_lt_two (Pc.enqueuing_left hpc)
    exact ⟨hlt.le, fun _ => hlt⟩
  · refine ⟨?_, fun he => absurd he hpc⟩
    have ha : ¬ a.pc.enqueuing := by
      intro ha
      have := effect_enqueuing (advance_effect h) ha
      simp_all
    rw [Pc.toEnqueue, if_neg ha]
    exact Nat.zero_le _

theorem total_take {domain : String} {payload : Payload} {rest : List Payload} {lock : LockId}
    (h : q.scan now locked = .found domain payload rest lock) :
    Dict.total List.length (q.queues.set domain rest) + 1 = Dict.total List.length q.queues := by
  have hget := Dict.get?_eq_some_iff.mpr (scan_found h).1
  have htotal := Dict.total_set List.length q.queues domain rest
  rw [Dict.at?, hget] at htotal
  simp only [Option.elim_some, List.length_cons] at htotal
  omega

/-- Without an enqueue the work only shrinks. -/
theorem effect_load (h : Effect lib locked now q pc reply a) (hpc : pc.enqueuing = false) :
    7 * Dict.total List.length a.queue.queues + a.pc.toComplete ≤
        7 * Dict.total List.length q.queues + pc.toComplete ∧
      (pc.payload? ≠ none ∨ a.pc.payload? ≠ none → 7 * Dict.total List.length a.queue.queues + a.pc.toComplete <
        7 * Dict.total List.length q.queues + pc.toComplete) := by
  cases h with
  | idle h h' => simp [Pc.idle_toComplete h, Pc.idle_toComplete h', Pc.idle_payload h, Pc.idle_payload h']
  | enter _ h _ _ =>
    rw [Pc.idle_toComplete h, Pc.idle_payload h]
    exact ⟨le_refl _, by simp [Pc.payload?]⟩
  | leave h _ => rw [h] at hpc; cases hpc
  | current | fetchable | chosen | listed | put | lookedUp => cases hpc
  | take hscan =>
    have := total_take hscan
    simp only [BackQueue.take, Pc.toComplete]
    omega
  | removeDomain =>
    rename_i domain lock
    have := Dict.total_erase List.length q.queues domain
    simp only [BackQueue.removeDomain, Pc.toComplete, Pc.payload?]
    exact ⟨by omega, by simp⟩
  | _ => simp [Pc.toComplete, Pc.payload?, BackQueue.setReleaseTime, BackQueue.complete]

/-- Only a report creates a cleanup. -/
theorem effect_toRemove (h : Effect lib locked now q pc reply a) :
    a.pc.toRemove ≤ pc.toRemove ∧ (pc.cleaning? ≠ none → a.pc.toRemove < pc.toRemove) ∧
      (pc.payload? = none → a.created = []) := by
  cases h with
  | idle h h' =>
    rw [Pc.toRemove_eq_zero.mpr (Pc.idle_cleaning h'), Pc.idle_cleaning h]
    simp
  | enter _ h _ _ =>
    rw [Pc.idle_cleaning h]
    simp [Pc.toRemove]
  | leave h h' =>
    have hpc : pc.cleaning? = none := by cases pc <;> simp_all [Pc.enqueuing, Pc.cleaning?]
    rw [Pc.toRemove_eq_zero.mpr (Pc.idle_cleaning h'), hpc]
    simp
  | put _ hpc =>
    subst hpc
    dsimp only
    split <;> simp [Pc.toRemove, Pc.cleaning?]
  | _ => simp [Pc.toRemove, Pc.cleaning?, Pc.payload?]

theorem sum_created (h : Effect lib locked now q pc reply a) (f : Pc → Nat) (hf : ∀ d, f (.cleanup d) = 0) :
    (a.created.map f).sum = 0 := by
  rw [List.sum_eq_zero_iff_forall_eq_nat]
  intro x hx
  obtain ⟨p, hp, rfl⟩ := List.mem_map.mp hx
  obtain ⟨d, rfl⟩ := effect_created h p hp
  exact hf d

/-! ## The end of what had begun -/

section

variable {b : Behavior (Node.step lib)} {i : Nat}

theorem sound_at (h₀ : b.state 0 = .initial) (i : Nat) : (b.state i).Sound lib :=
  sound_of_reaches (h₀ ▸ b.reaches i)

theorem draining_step (h : n.step lib action = some n') (hdraining : n.queue.draining = true) : n'.queue.draining = true := by
  obtain ⟨task, reply, pc, a, -, hran, -⟩ | ⟨hsame, -⟩ := step_cases h
  · rw [hran.queue, effect_draining hran.effect]
    exact hdraining
  · exact hsame.draining hdraining

theorem draining_onward (h : (b.state i).queue.draining = true) : Onward (fun j => (b.state j).queue.draining = true) i :=
  b.onward (fun n => n.queue.draining = true) h (fun _ _ _ hn hstep => draining_step hstep hn)

/-- A run step of a task at a known point. -/
theorem ran_of_turn (h : n.step lib action = some n') (hturn : action.turn = some task) (hpc : n.tasks.pcs[task]? = some pc) :
    ∃ reply a, Ran lib n task reply pc a n' ∧
      advance lib (fun lock => (n.tasks.locks (.domain lock)).locked) n.now n.queue pc reply = some a := by
  obtain ⟨reply, rfl⟩ := turn_eq_some.mp hturn
  obtain ⟨pc', a, hran, ha⟩ := runTask_advance h
  obtain rfl := Option.some.inj (hran.at_pc.symm.trans hpc)
  exact ⟨reply, a, hran, ha⟩

/-- Work that no step adds to, and every step at one of its points does some of,
comes to rest: it is the same from some position on, and nobody is at it. -/
theorem later_rest (h₀ : b.state 0 = .initial) (hfair : Fair b) (work : Node → Nat) (busy : Pc → Prop)
    (hbusy : ∀ pc, busy pc → pc.ended = false)
    (hsame : ∀ n n' : Node, SameWork n.queue n'.queue → (∀ f : Pc → Nat, f .next = 0 →
      (∀ deadline, f (.waitForDrain deadline) = 0) → n'.tasks.weight f = n.tasks.weight f) → work n' = work n)
    (hran : ∀ j, i ≤ j → ∀ task reply pc a, Ran lib (b.state j) task reply pc a (b.state (j + 1)) →
      advance lib (fun lock => ((b.state j).tasks.locks (.domain lock)).locked) (b.state j).now (b.state j).queue pc reply = some a →
      work (b.state (j + 1)) ≤ work (b.state j) ∧ (busy pc → work (b.state (j + 1)) < work (b.state j))) :
    Later (fun j => Onward (fun k => work (b.state k) = work (b.state j) ∧ ∀ pc ∈ (b.state k).tasks.pcs, ¬ busy pc) j) i := by
  apply (schedule h₀ hfair).later_idle (fun j => work (b.state j)) busy
  · intro pc hpc
    simpa [lockProtocol] using hbusy pc hpc
  · intro j hj
    obtain ⟨task, reply, pc, a, -, hr, ha⟩ | ⟨hwork, -, hweight⟩ := step_cases (b.next j)
    · exact (hran j hj task reply pc a hr ha).1
    · exact (hsame _ _ hwork hweight).le
  · intro j task pc hj hturn hpc
    obtain ⟨reply, a, hr, ha⟩ := ran_of_turn (b.next j) hturn hpc
    exact (hran j hj task reply pc a hr ha).2

theorem toEnqueue_ran (hran : Ran lib n task reply pc a n')
    (ha : advance lib (fun lock => (n.tasks.locks (.domain lock)).locked) n.now n.queue pc reply = some a)
    (hdraining : n.queue.draining = true) : n'.tasks.weight Pc.toEnqueue ≤ n.tasks.weight Pc.toEnqueue ∧
    (pc.enqueuing = true → n'.tasks.weight Pc.toEnqueue < n.tasks.weight Pc.toEnqueue) := by
  have hweight := hran.weight Pc.toEnqueue
  have hcreated := sum_created hran.effect Pc.toEnqueue (fun _ => rfl)
  obtain ⟨hle, hlt⟩ := advance_toEnqueue ha hdraining
  refine ⟨by omega, fun h => ?_⟩
  have := hlt h
  omega

/-- Enqueues end, and no more begin. -/
theorem later_admitted (h₀ : b.state 0 = .initial) (hfair : Fair b) (h : (b.state i).queue.draining = true) :
    Later (Onward (fun j => ∀ pc ∈ (b.state j).tasks.pcs, ¬ pc.enqueuing)) i := by
  have hdraining := draining_onward h
  have hrest := later_rest (i := i) h₀ hfair (fun n => n.tasks.weight Pc.toEnqueue) (fun pc => pc.enqueuing = true)
    (fun pc hpc => by cases pc <;> first | rfl | cases hpc)
    (fun _ _ _ hweight => hweight Pc.toEnqueue rfl (fun _ => rfl))
    (fun j hj _ _ _ _ hr ha => toEnqueue_ran hr ha (hdraining j hj))
  exact hrest.imp (fun j _ hj k hk => (hj k hk).2)

theorem load_ran (hran : Ran lib n task reply pc a n') (hpc : pc.enqueuing = false) : n'.load ≤ n.load ∧
    (pc.payload? ≠ none ∨ a.pc.payload? ≠ none → n'.load < n.load) := by
  have hweight := hran.weight Pc.toComplete
  have hcreated := sum_created hran.effect Pc.toComplete (fun _ => rfl)
  obtain ⟨hle, hlt⟩ := effect_load hran.effect hpc
  unfold Node.load
  rw [hran.queue]
  refine ⟨by omega, fun h => ?_⟩
  have := hlt h
  omega

/-- Payloads are completed. -/
theorem later_completed (h₀ : b.state 0 = .initial) (hfair : Fair b)
    (h : Onward (fun j => ∀ pc ∈ (b.state j).tasks.pcs, ¬ pc.enqueuing) i) :
    Later (fun j => Onward (fun k => (b.state k).load = (b.state j).load ∧ ∀ pc ∈ (b.state k).tasks.pcs, ¬ pc.payload? ≠ none) j) i := by
  apply later_rest h₀ hfair Node.load (fun pc => pc.payload? ≠ none)
  · intro pc hpc
    cases pc <;> first | rfl | exact absurd rfl hpc
  · intro n n' hwork hweight
    rw [Node.load, Node.load, hwork.queues, hweight Pc.toComplete rfl (fun _ => rfl)]
  · intro j hj task reply pc a hr _
    have hpc : pc.enqueuing = false := by simpa using h j hj pc (List.mem_of_getElem? hr.at_pc)
    obtain ⟨hle, hlt⟩ := load_ran hr hpc
    exact ⟨hle, fun hbusy => hlt (.inl hbusy)⟩

theorem toRemove_ran (hran : Ran lib n task reply pc a n') (hpc : pc.payload? = none) :
    n'.tasks.weight Pc.toRemove ≤ n.tasks.weight Pc.toRemove ∧
    (pc.cleaning? ≠ none → n'.tasks.weight Pc.toRemove < n.tasks.weight Pc.toRemove) := by
  have hweight := hran.weight Pc.toRemove
  obtain ⟨hle, hlt, hcreated⟩ := effect_toRemove hran.effect
  rw [hcreated hpc] at hweight
  simp only [List.map_nil, List.sum_nil] at hweight
  refine ⟨by omega, fun h => ?_⟩
  have := hlt h
  omega

/-- Cleanups end. -/
theorem later_cleaned (h₀ : b.state 0 = .initial) (hfair : Fair b)
    (h : Onward (fun j => ∀ pc ∈ (b.state j).tasks.pcs, pc.payload? = none) i) :
    Later (Onward (fun j => ∀ pc ∈ (b.state j).tasks.pcs, ¬ pc.cleaning? ≠ none)) i := by
  have hrest := later_rest (i := i) h₀ hfair (fun n => n.tasks.weight Pc.toRemove) (fun pc => pc.cleaning? ≠ none)
    (fun pc hpc => by cases pc <;> first | rfl | exact absurd rfl hpc)
    (fun _ _ _ hweight => hweight Pc.toRemove rfl (fun _ => rfl))
    (fun j hj _ _ pc _ hr _ => toRemove_ran hr (h j hj pc (List.mem_of_getElem? hr.at_pc)))
  exact hrest.imp (fun j _ hj k hk => (hj k hk).2)

end

/-! ## Nothing but queued payloads -/

/-- The worker drains, and all that is left are queued payloads. -/
structure Node.Calm (n : Node) : Prop where
  draining : n.queue.draining = true
  enqueuing : ∀ pc ∈ n.tasks.pcs, ¬ pc.enqueuing
  payload : ∀ pc ∈ n.tasks.pcs, pc.payload? = none
  cleaning : ∀ pc ∈ n.tasks.pcs, pc.cleaning? = none

/-- Nobody is in line for a domain's lock. -/
theorem Node.Calm.unlocked (h : n.Calm) (hd : n.Disciplined) (lock : LockId) : (n.tasks.locks (.domain lock)).locked = false := by
  rw [Mutex.locked, Option.isSome_eq_false_iff, Option.isNone_iff_eq_none]
  by_contra hsome
  obtain ⟨u, hu⟩ := Option.ne_none_iff_exists'.mp hsome
  have hin : u ∈ (n.tasks.locks (.domain lock)).line := by simp [Mutex.line, hu]
  obtain ⟨pc, hpc, hregion⟩ := (hd.lined.mem _ u).mp hin
  have hpayload := h.payload pc (List.mem_of_getElem? hpc)
  have hcleaning := h.cleaning pc (List.mem_of_getElem? hpc)
  cases pc <;> simp_all [Pc.region, Pc.payload?, Pc.cleaning?]

/-- The dictionaries stay as they are. -/
theorem Node.Calm.same (h : n.Calm) (h' : n'.Calm) (hstep : n.step lib action = some n') :
    n'.queue.queues = n.queue.queues ∧ n'.queue.releaseTimes = n.queue.releaseTimes ∧ n'.queue.locks = n.queue.locks := by
  obtain ⟨task, reply, pc, a, -, hran, -⟩ | ⟨hsame, -⟩ := step_cases hstep
  · have hmem := List.mem_of_getElem? hran.at_pc
    have henqueuing := h.enqueuing pc hmem
    have hpayload := h.payload pc hmem
    have hcleaning := h.cleaning pc hmem
    have hnext := h'.payload a.pc (List.mem_of_getElem? hran.at_next)
    rw [hran.queue]
    have heffect := hran.effect
    cases heffect with
    | put | lookedUp => exact absurd rfl henqueuing
    | take => cases hnext
    | report | complete => cases hpayload
    | removeDomain => cases hcleaning
    | _ => exact ⟨rfl, rfl, rfl⟩
  · exact ⟨hsame.queues, hsame.releaseTimes, hsame.locks⟩

theorem scanEntries_nothing {entries : List (String × List Payload)} (h : q.scanEntries now locked entries = .nothing)
    (hunlocked : ∀ lock, locked lock = false) (hpast : ∀ d t, q.releaseTimes.get? d = some t → t ≤ now) :
    ∀ e ∈ entries, e.2 = [] := by
  induction entries with
  | nil => simp
  | cons e entries ih =>
    obtain ⟨d, queue⟩ := e
    simp only [BackQueue.scanEntries] at h
    split at h
    · rename_i time lock htime hlock
      split at h
      · intro e he
        obtain rfl | he := List.mem_cons.mp he
        · rfl
        · exact ih h e he
      · rw [if_pos ⟨hpast d time htime, by simp [hunlocked]⟩] at h
        cases h
    · cases h

/-- Once every release time has come, a scan finds a payload if there is one. -/
theorem Node.Calm.scan (h : n.Calm) (hd : n.Disciplined) (hdated : n.Dated)
    (hlocks : ∀ d, d ∈ n.queue.queues.keys ↔ d ∈ n.queue.locks.keys)
    (hpast : ∀ d t, n.queue.releaseTimes.get? d = some t → t ≤ n.now) :
    (∃ domain payload rest lock, n.queue.scan n.now (fun lock => (n.tasks.locks (.domain lock)).locked) =
      .found domain payload rest lock) ∨ ∀ e ∈ n.queue.queues.entries, e.2 = [] := by
  have hkey : ∀ e ∈ n.queue.queues.entries, e.1 ∈ n.queue.releaseTimes.keys ∧ e.1 ∈ n.queue.locks.keys := by
    intro e he
    have hqueued : e.1 ∈ n.queue.queues.keys := List.mem_map_of_mem he
    refine ⟨(hdated e.1 hqueued).resolve_right ?_, (hlocks e.1).mp hqueued⟩
    rintro ⟨pc, hpc, caller, urls, rfl⟩
    exact h.enqueuing _ hpc rfl
  have hne : n.queue.scan n.now (fun lock => (n.tasks.locks (.domain lock)).locked) ≠ .keyError := scanEntries_ne_keyError hkey
  cases hscan : n.queue.scan n.now (fun lock => (n.tasks.locks (.domain lock)).locked) with
  | found domain payload rest lock => exact .inl ⟨domain, payload, rest, lock, rfl⟩
  | nothing => exact .inr (scanEntries_nothing hscan (h.unlocked hd) hpast)
  | keyError => exact absurd hscan hne

/-! ## A loop that scans -/

/-- A point of a handler loop of the Downloader. -/
def Pc.looping : Pc → Bool
  | .next | .beforeScan | .scan | .sleeping => true
  | .enqueue caller | .excludedDomains caller _ | .distinctDomains caller _ _ | .domainUrls caller _
  | .putting caller _ | .domainReleaseTime caller _ _ => caller = .next
  | .handed _ _ | .started _ _ | .domainLock _ _ | .fetching _ _ | .reporting _ _ _ | .completing _ _ => true
  | _ => false

theorem return_looping {caller : Caller} (h : decide (caller = .next) = true) (found : Bool) :
    (caller.return found).looping = true := by
  obtain rfl := of_decide_eq_true h
  cases found <;> rfl

theorem raise_looping {caller : Caller} (h : decide (caller = .next) = true) : caller.raise.looping = true := by
  obtain rfl := of_decide_eq_true h
  rfl

/-- A handler loop never ends. -/
theorem advance_looping (h : advance lib locked now q pc reply = some a) (hpc : pc.looping) : a.pc.looping := by
  unfold advance at h
  split at h
  -- `next`
  · split at h <;> cases h <;> rfl
  · cases h; rfl
  · split at h <;> cases h <;> rfl
  · cases h; rfl
  -- `_enqueue_new_domain` returns or raises to its caller
  · cases hpc
  · split at h <;> cases h
    · exact return_looping hpc _
    · exact hpc
  · obtain ⟨excluded, -, rfl⟩ := Option.map_eq_some_iff.mp h
    split
    · exact return_looping hpc _
    · exact hpc
  · split at h <;> cases h
    · exact return_looping hpc _
    · exact hpc
  · cases h; exact raise_looping hpc
  · split at h <;> cases h
    · exact return_looping hpc _
    · exact hpc
  · cases h; exact raise_looping hpc
  · cases h; exact return_looping hpc _
  · split at h
    · cases h; exact raise_looping hpc
    · dsimp only at h
      split at h <;> cases h <;> exact hpc
  · cases h; exact hpc
  · cases h; exact hpc
  · cases h; exact hpc
  -- `download`
  · cases h; rfl
  · cases h; rfl
  · cases h; rfl
  · cases h; rfl
  · cases h; rfl
  · cases h; rfl
  · cases h; rfl
  · cases hpc
  · cases hpc
  · cases hpc
  · cases hpc
  · cases hpc
  · cases hpc
  · cases h

section

variable {b : Behavior (Node.step lib)} {i j : Nat}

/-- The task runs from a point. -/
def RunsFrom (b : Behavior (Node.step lib)) (task : TaskId) (pc : Pc) (j : Nat) : Prop :=
  ∃ reply a, Ran lib (b.state j) task reply pc a (b.state (j + 1)) ∧
    advance lib (fun lock => ((b.state j).tasks.locks (.domain lock)).locked) (b.state j).now (b.state j).queue pc reply = some a

/-- The next step of a task. -/
theorem later_runs (h₀ : b.state 0 = .initial) (hfair : Fair b) (hpc : (b.state i).tasks.pcs[task]? = some pc)
    (hended : pc.ended = false) : Later (RunsFrom b task pc) i := by
  obtain ⟨j, hj, hturn, hpc⟩ := (schedule h₀ hfair).first_turn hpc (by simpa [lockProtocol] using hended)
  exact ⟨j, hj, ran_of_turn (b.next j) hturn hpc⟩

/-- The next point of a task, where every reply leads to it. -/
theorem later_point (h₀ : b.state 0 = .initial) (hfair : Fair b) (hpc : (b.state i).tasks.pcs[task]? = some pc)
    (hended : pc.ended = false) {pc' : Pc}
    (hpoint : ∀ j, i ≤ j → ∀ (locked : LockId → Bool) (reply : Reply) (a : Advance),
      advance lib locked (b.state j).now (b.state j).queue pc reply = some a → a.pc = pc') :
    Later (fun j => i < j ∧ (b.state j).tasks.pcs[task]? = some pc') i := by
  obtain ⟨j, hj, reply, a, hran, ha⟩ := later_runs h₀ hfair hpc hended
  have hat := hran.at_next
  rw [hpoint j hj _ reply a ha] at hat
  exact ⟨j + 1, by omega, by omega, hat⟩

theorem looping_onward (h : ∃ pc, (b.state i).tasks.pcs[task]? = some pc ∧ pc.looping) :
    Onward (fun j => ∃ pc, (b.state j).tasks.pcs[task]? = some pc ∧ pc.looping) i := by
  refine b.onward (fun n => ∃ pc, n.tasks.pcs[task]? = some pc ∧ pc.looping) h ?_
  rintro n action n' ⟨pc, hpc, hlooping⟩ hstep
  by_cases hturn : action.turn = some task
  · obtain ⟨reply, a, hran, ha⟩ := ran_of_turn hstep hturn hpc
    exact ⟨a.pc, hran.at_next, advance_looping ha hlooping⟩
  · exact ⟨pc, (protocol_step hstep).pcs hturn hpc, hlooping⟩

/-- While the worker drains a handler loop scans again and again. -/
theorem later_scan (h₀ : b.state 0 = .initial) (hfair : Fair b) (hcalm : Onward (fun j => (b.state j).Calm) i)
    (hloop : ∃ pc, (b.state i).tasks.pcs[task]? = some pc ∧ pc.looping) : Later (RunsFrom b task .scan) i := by
  have hscan (j : Nat) (hpc : (b.state j).tasks.pcs[task]? = some .scan) : Later (RunsFrom b task .scan) j :=
    later_runs h₀ hfair hpc rfl
  have hnext (j : Nat) (hj : i ≤ j) (hpc : (b.state j).tasks.pcs[task]? = some .next) : Later (RunsFrom b task .scan) j := by
    have hlater : Later (fun k => j < k ∧ (b.state k).tasks.pcs[task]? = some .scan) j := by
      refine later_point h₀ hfair hpc rfl ?_
      intro l hl locked reply a ha
      have hdraining := (hcalm l (hj.trans hl)).draining
      cases reply <;> simp [advance, hdraining] at ha
      subst ha
      rfl
    obtain ⟨k, hk, -, hat⟩ := hlater
    exact (hscan k hat).from hk
  obtain ⟨pc, hpc, hlooping⟩ := hloop
  have hmem := List.mem_of_getElem? hpc
  have henqueuing := (hcalm i (le_refl i)).enqueuing pc hmem
  have hpayload := (hcalm i (le_refl i)).payload pc hmem
  cases pc with
  | next => exact hnext i (le_refl i) hpc
  | scan => exact hscan i hpc
  | beforeScan =>
    obtain ⟨k, hk, -, hat⟩ := later_point h₀ hfair hpc rfl (fun _ _ _ reply a ha => by cases reply <;> cases ha; rfl)
    exact (hscan k hat).from hk
  | sleeping =>
    obtain ⟨k, hk, -, hat⟩ := later_point h₀ hfair hpc rfl (fun _ _ _ reply a ha => by cases reply <;> cases ha; rfl)
    exact (hnext k hk hat).from hk
  | enqueue | excludedDomains | distinctDomains | domainUrls | putting | domainReleaseTime => exact absurd rfl henqueuing
  | handed | started | domainLock | fetching | reporting | completing => cases hpayload
  | _ => cases hlooping

/-! ## The drain -/

theorem dated_at (h₀ : b.state 0 = .initial) (i : Nat) : (b.state i).Dated ∧
    ∀ d, d ∈ (b.state i).queue.queues.keys ↔ d ∈ (b.state i).queue.locks.keys := by
  have hstart : (b.state 0).Dated ∧ ∀ d, d ∈ (b.state 0).queue.queues.keys ↔ d ∈ (b.state 0).queue.locks.keys := by
    rw [h₀]
    exact ⟨fun d hd => (by cases hd), fun d => Iff.rfl⟩
  have hkept (n : Node) (action : Action) (n' : Node) (h : n.Dated ∧ ∀ d, d ∈ n.queue.queues.keys ↔ d ∈ n.queue.locks.keys)
      (hstep : n.step lib action = some n') :
      n'.Dated ∧ ∀ d, d ∈ n'.queue.queues.keys ↔ d ∈ n'.queue.locks.keys := by
    obtain ⟨hdated, hlocks⟩ := h
    obtain ⟨task, reply, pc, a, -, hran, ha⟩ | ⟨hsame, hpcs, -⟩ := step_cases hstep
    · refine ⟨hdated.ran hran ha, fun d => ?_⟩
      rw [hran.queue]
      exact effect_sameKeys hran.effect hlocks d
    · refine ⟨fun d hd => ?_, fun d => ?_⟩
      · rw [hsame.queues] at hd
        rw [hsame.releaseTimes]
        obtain hd | ⟨pc, hpc, h⟩ := hdated d hd
        · exact Or.inl hd
        · exact Or.inr ⟨pc, hpcs pc hpc, h⟩
      · rw [hsame.queues, hsame.locks]
        exact hlocks d
  exact b.onward (fun n => n.Dated ∧ ∀ d, d ∈ n.queue.queues.keys ↔ d ∈ n.queue.locks.keys) hstart hkept i (Nat.zero_le i)

theorem now_onward (T : Time) (h : T ≤ (b.state i).now) : Onward (fun j => T ≤ (b.state j).now) i := by
  refine b.onward (fun n => T ≤ n.now) h (fun n action n' hn hstep => ?_)
  cases step_stepped hstep with
  | ran hran => rwa [hran.now]
  | outside _ _ hnow => exact hn.trans hnow
  | granted _ he | looped he | waiting _ _ he => subst he; exact hn

/-- After `drain` the worker is calm sooner or later, and stays so with the same
dictionaries. -/
theorem later_calm (h₀ : b.state 0 = .initial) (hfair : Fair b) (h : (b.state i).queue.draining = true) :
    Later (fun j => Onward (fun k => (b.state k).Calm ∧ (b.state k).load = (b.state j).load) j) i := by
  obtain ⟨i₁, hi₁, hadmitted⟩ := later_admitted h₀ hfair h
  obtain ⟨i₂, hi₂, hcompleted⟩ := later_completed h₀ hfair hadmitted
  have hpayload : Onward (fun j => ∀ pc ∈ (b.state j).tasks.pcs, pc.payload? = none) i₂ :=
    fun j hj pc hpc => not_ne_iff.mp ((hcompleted j hj).2 pc hpc)
  obtain ⟨i₃, hi₃, hcleaned⟩ := later_cleaned h₀ hfair hpayload
  refine ⟨i₃, by omega, fun k hk => ⟨⟨?_, ?_, ?_, ?_⟩, ?_⟩⟩
  · exact draining_onward h k (by omega)
  · exact hadmitted k (by omega)
  · exact hpayload k (by omega)
  · exact fun pc hpc => not_ne_iff.mp (hcleaned k hk pc hpc)
  · rw [(hcompleted k (by omega)).1, (hcompleted i₃ hi₃).1]

theorem calm_dicts (hcalm : Onward (fun j => (b.state j).Calm) i) : Onward (fun j =>
    (b.state j).queue.queues = (b.state i).queue.queues ∧ (b.state j).queue.releaseTimes = (b.state i).queue.releaseTimes) i := by
  refine onward_of_step ⟨rfl, rfl⟩ (fun j hj hsame => ?_)
  obtain ⟨hqueues, htimes, -⟩ := (hcalm j hj).same (hcalm (j + 1) (hj.trans (Nat.le_succ j))) (b.next j)
  exact ⟨hqueues.trans hsame.1, htimes.trans hsame.2⟩

theorem exists_bound (d : Dict String Time) : ∃ T, ∀ k t, d.get? k = some t → t ≤ T := by
  have hbound : ∀ entries : List (String × Time), ∃ T, ∀ e ∈ entries, e.2 ≤ T := by
    intro entries
    induction entries with
    | nil => exact ⟨0, by simp⟩
    | cons e entries ih =>
      obtain ⟨T, hT⟩ := ih
      refine ⟨max e.2 T, fun x hx => ?_⟩
      obtain rfl | hx := List.mem_cons.mp hx
      · exact le_max_left _ _
      · exact (hT x hx).trans (le_max_right _ _)
  obtain ⟨T, hT⟩ := hbound d.entries
  exact ⟨T, fun k t h => hT (k, t) (Dict.get?_eq_some_iff.mp h)⟩

theorem hasLocalWork_of_calm (h : n.Calm) (ha : n.Accounted lib) (hempty : ∀ e ∈ n.queue.queues.entries, e.2 = []) :
    n.queue.hasLocalWork = false := by
  have hnone : n.queue.inFlightBuckets.entries = [] := by
    rw [List.eq_nil_iff_forall_not_mem]
    rintro ⟨bucket, count⟩ he
    have hget := Dict.get?_eq_some_iff.mpr he
    have hzero : n.outstanding lib bucket = 0 := by
      unfold Node.outstanding
      rw [List.countP_eq_zero]
      intro pc hpc
      simp [h.payload pc hpc]
    rw [ha bucket, if_pos hzero] at hget
    cases hget
  simp only [BackQueue.hasLocalWork, Dict.size, hnone, List.length_nil, ne_eq, not_true, decide_false, Bool.false_or,
    List.any_eq_false]
  intro e he
  simp [hempty e he]

/-- A round of `wait_for_drain` ends the call or comes to the next one, past the
deadline always the former. -/
theorem wait_round (h₀ : b.state 0 = .initial) (hfair : Fair b) {deadline : Time}
    (hpc : (b.state i).tasks.pcs[task]? = some (.waitForDrain deadline)) :
    Later (fun j => (b.state j).tasks.pcs[task]? = some .drained ∨
      ((b.state j).tasks.pcs[task]? = some .timedOut ∧ deadline ≤ (b.state j).now) ∨
      (¬ deadline ≤ (b.state i).now ∧ i < j ∧ (b.state j).tasks.pcs[task]? = some (.waitForDrain deadline))) i := by
  obtain ⟨k, hk, reply, a, hran, ha⟩ := later_runs h₀ hfair hpc rfl
  have hat := hran.at_next
  cases reply <;> simp only [advance, reduceCtorEq] at ha
  split at ha <;> cases ha
  · rename_i hlt
    have hearly : ¬ deadline ≤ (b.state i).now := fun hle =>
      not_le_of_gt hlt (now_onward deadline hle k hk)
    obtain ⟨l, hl, reply, a, hran, ha⟩ := later_runs h₀ hfair hat rfl
    have hat := hran.at_next
    cases reply <;> simp only [advance, reduceCtorEq] at ha
    split at ha <;> cases ha
    · obtain ⟨m, hm, hlt, hat⟩ := later_point h₀ hfair hat rfl (fun _ _ _ reply a ha => by cases reply <;> cases ha; rfl)
      exact ⟨m, by omega, .inr (.inr ⟨hearly, by omega, hat⟩)⟩
    · exact ⟨l + 1, by omega, .inl hat⟩
  · rename_i hlate
    refine ⟨k + 1, by omega, .inr (.inl ⟨hat, ?_⟩)⟩
    rw [hran.now]
    exact not_lt.mp hlate

/-- Every `wait_for_drain` returns, by its deadline or after it. -/
theorem later_returned (h₀ : b.state 0 = .initial) (hfair : Fair b) (htime : ∀ T, ∃ i, T ≤ (b.state i).now)
    {deadline : Time} (hpc : (b.state i).tasks.pcs[task]? = some (.waitForDrain deadline)) :
    Later (fun j => (b.state j).tasks.pcs[task]? = some .drained ∨
      ((b.state j).tasks.pcs[task]? = some .timedOut ∧ deadline ≤ (b.state j).now)) i := by
  obtain ⟨T, hT⟩ := htime deadline
  -- the positions left before the deadline
  generalize hleft : T - i = left
  induction left using Nat.strong_induction_on generalizing i with
  | _ left ih =>
    obtain ⟨j, hj, hdrained | htimed | ⟨hearly, hlt, hagain⟩⟩ := wait_round h₀ hfair hpc
    · exact ⟨j, hj, .inl hdrained⟩
    · exact ⟨j, hj, .inr htimed⟩
    · have hiT : i < T := by
        by_contra hle
        exact hearly (now_onward deadline hT i (by omega))
      exact (ih (T - j) (by omega) hagain rfl).from hj

/-- In a fair run of the event loop in which time goes on, every `wait_for_drain`
returns; with a Downloader loop the local work ends for good after `drain`. -/
theorem drain_completes (lib : Externals) (b : Behavior (Node.step lib)) (h₀ : b.state 0 = .initial) (hfair : Fair b)
    (htime : ∀ T, ∃ i, T ≤ (b.state i).now) :
    (∀ (task : TaskId) (deadline : Time) (i : Nat), (b.state i).tasks.pcs[task]? = some (.waitForDrain deadline) →
      ∃ j, i ≤ j ∧ ((b.state j).tasks.pcs[task]? = some .drained ∨
        ((b.state j).tasks.pcs[task]? = some .timedOut ∧ deadline ≤ (b.state j).now))) ∧
    ((∃ i, b.action i = .loop) → (∃ i, (b.state i).queue.draining = true) →
      ∃ i, ∀ j, i ≤ j → (b.state j).queue.hasLocalWork = false) := by
  refine ⟨fun task deadline i hpc => later_returned h₀ hfair htime hpc, fun hloop hdrain => ?_⟩
  obtain ⟨i, hdraining⟩ := hdrain
  obtain ⟨i₁, -, hcalm⟩ := later_calm h₀ hfair hdraining
  have hstill : Onward (fun j => (b.state j).Calm) i₁ := fun j hj => (hcalm j hj).1
  have hdicts := calm_dicts hstill
  suffices hempty : ∀ e ∈ (b.state i₁).queue.queues.entries, e.2 = [] by
    refine ⟨i₁, fun j hj => hasLocalWork_of_calm (hstill j hj) (sound_at h₀ j).accounted ?_⟩
    rw [(hdicts j hj).1]
    exact hempty
  -- a scan after the last release time would find a payload
  obtain ⟨T, hT⟩ := exists_bound (b.state i₁).queue.releaseTimes
  obtain ⟨i₂, hi₂⟩ := htime T
  obtain ⟨i₃, hi₃⟩ := hloop
  obtain ⟨task, hstart⟩ : ∃ (task : TaskId) (pc : Pc), (b.state (i₃ + 1)).tasks.pcs[task]? = some pc ∧ pc.looping := by
    have hstep := b.next i₃
    rw [hi₃] at hstep
    have hpcs : (b.state (i₃ + 1)).tasks.pcs = (b.state i₃).tasks.pcs ++ [.next] := by
      rw [← Option.some.inj hstep]
      rfl
    exact ⟨(b.state i₃).tasks.pcs.length, Pc.next, by rw [hpcs]; simp, rfl⟩
  have hlooping := looping_onward hstart (max i₁ (max i₂ (i₃ + 1))) (by omega)
  obtain ⟨j, hj, reply, a, hran, ha⟩ := later_scan h₀ hfair (hstill.from (by omega)) hlooping
  have hj₁ : i₁ ≤ j := by omega
  have hpast : ∀ d t, (b.state j).queue.releaseTimes.get? d = some t → t ≤ (b.state j).now := by
    intro d t hget
    rw [(hdicts j hj₁).2] at hget
    exact (hT d t hget).trans (now_onward T hi₂ j (by omega))
  obtain ⟨hdated, hlocks⟩ := dated_at h₀ j
  obtain ⟨domain, payload, rest, lock, hfound⟩ | hempty :=
    (hstill j hj₁).scan (sound_at h₀ j).disciplined hdated hlocks hpast
  · have hpayload := (hstill (j + 1) (by omega)).payload a.pc (List.mem_of_getElem? hran.at_next)
    cases reply <;> simp [advance, hfound] at ha
    subst ha
    cases hpayload
  · rw [(hdicts j hj₁).1] at hempty
    exact hempty

end

/-- The page is crawled and the drain is seen to end, while the handler goes on. -/
theorem drain_completes_site : ∃ b : Behavior (Node.step site), b.state 0 = .initial ∧ Fair b ∧ b.action 1 = .loop ∧
    b.action 10 = .drain ∧ ∃ i, ∀ j, i ≤ j → (b.state j).queue.hasLocalWork = false := by
  obtain ⟨n, hrun, hidle⟩ := exists_drainingRun
  obtain ⟨b, hstart, hfair, htime, hhead, hstate⟩ := exists_fair site drainingRun hrun hidle
  have hloop : b.action 1 = .loop := (Option.some.inj (hhead 1 (by decide))).symm
  have hdrain : b.action 10 = .drain := (Option.some.inj (hhead 10 (by decide))).symm
  have hdraining : (b.state drainingRun.length).queue.draining = true := by
    rw [hstate]
    exact hidle.draining
  exact ⟨b, hstart, hfair, hloop, hdrain,
    (drain_completes site b hstart hfair htime).2 ⟨1, hloop⟩ ⟨drainingRun.length, hdraining⟩⟩

end Linksurf
