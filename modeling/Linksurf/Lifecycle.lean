import Linksurf.ClusterSteps
import Linksurf.Course
import Linksurf.Reliance

/-!
# Processes from start to exit

At every point of its course an application, its heartbeat, the coroutines of
its worker and its event loop fit together, whatever fails and whenever a
signal arrives. Hence a release is final.
-/
namespace Linksurf.Application

open Coroutine Monitor Execution Pool

/-! ## The event loop -/

/-- What a step of the event loop leaves to the application. -/
structure Continues (lib : Externals) (n n' : Node) : Prop where
  sound : n.Sound lib → n'.Sound lib
  quiet : n.Quiet → n'.Quiet
  ready : n'.queue.ready = n.queue.ready
  timedOut : .timedOut ∈ n.tasks.pcs → .timedOut ∈ n'.tasks.pcs

variable {lib : Externals} {moves : BucketMoves} {n n' : Node} {action : Action} {locked : LockId → Bool} {now : Time}
  {q : BackQueue} {pc : Pc} {reply : Linksurf.Reply} {a : Advance}

theorem effect_ready (h : Effect lib locked now q pc reply a) : a.queue.ready = q.ready := by
  cases h with
  | put =>
    unfold BackQueue.put
    dsimp only
    split <;> rfl
  | _ => rfl

theorem effect_not_over (h : Effect lib locked now q pc reply a) : pc ≠ .timedOut := by
  cases h with
  | idle h | enter _ h | leave h => rintro rfl; cases h
  | _ => nofun

theorem timedOut_stepped (h : Stepped lib n n') (hover : .timedOut ∈ n.tasks.pcs) : .timedOut ∈ n'.tasks.pcs := by
  cases h with
  | ran hran =>
    have hcount := hran.countP (· = .timedOut) (fun _ => rfl)
    have hpos : 0 < n.tasks.pcs.countP (· = .timedOut) := List.countP_pos_iff.mpr ⟨_, hover, by simp⟩
    rw [if_neg (by simpa using effect_not_over hran.effect)] at hcount
    obtain ⟨p, hp, hpo⟩ := List.countP_pos_iff.mp (by omega : 0 < n'.tasks.pcs.countP (· = .timedOut))
    exact (of_decide_eq_true hpo) ▸ hp
  | outside _ htasks _ => rw [htasks]; exact hover
  | granted lock he => subst he; exact hover
  | looped he => subst he; exact List.mem_append_left _ hover
  | waiting _ _ he => subst he; exact List.mem_append_left _ hover

theorem continues_step (h : n.step lib action = some n') (hready : ∀ b, action ≠ .setReady b) : Continues lib n n' where
  sound hs := hs.step (step_stepped h)
  quiet hq := hq.step (step_stepped h)
  ready := by
    cases action with
    | run task reply =>
      obtain ⟨pc, a, hran⟩ := runTask_ran h
      rw [hran.queue]
      exact effect_ready hran.effect
    | tick | waitForDrain =>
      simp only [Node.step] at h
      split at h <;> cases h
      rfl
    | setReady b => exact absurd rfl (hready b)
    | _ => cases h; rfl
  timedOut := timedOut_stepped (step_stepped h)

theorem continues_now (n : Node) (now : Time) : Continues lib n { n with now } := by
  have hfollows : n.Follows lib { n with now } := follows_now n now
  exact ⟨hfollows.sound, hfollows.quiet, rfl, id⟩

theorem Continues.refl (n : Node) : Continues lib n n := ⟨id, id, rfl, id⟩

/-- Without tasks none is run, and nothing else but a new loop adds one. -/
theorem vacant_step (h : n.step lib action = some n') (hv : n.Vacant) (hloop : action ≠ .loop)
    (hwait : ∀ t, action ≠ .waitForDrain t) : n'.Vacant := by
  cases action with
  | run task reply =>
    obtain ⟨pc, a, hran⟩ := runTask_ran h
    have hpc := hran.at_pc
    rw [hv.2] at hpc
    cases hpc
  | loop => exact absurd rfl hloop
  | waitForDrain t => exact absurd rfl (hwait t)
  | tick =>
    simp only [Node.step] at h
    split at h <;> cases h
    exact hv
  | _ => cases h; exact hv

/-! ## Where an application stands -/

/-- The operations of `heartbeat`. -/
def AppCall.Beats : AppCall → Prop
  | .sleep _ | .membership | .await (.upsertWorker _ _) | .createCoordination => True
  | _ => False

def Beats (rest : Rest) : Prop := rest.Issues (fun _ _ => True) AppCall.Beats (fun _ => True)

def Heartbeat.Beats : Heartbeat → Prop
  | .running rest | .cancelled rest => Application.Beats rest
  | _ => True

theorem beats_beat : Application.Beats (beat ()) := by
  refine ⟨trivial, fun _ _ => ⟨trivial, fun r _ => ⟨trivial, fun r _ => ?_⟩⟩⟩
  cases r with
  | error e => exact trivial
  | ok a => exact ⟨trivial, fun _ _ => trivial⟩

/-- What holds of a process and its application at a point of the course; `live`
are the coroutines of the worker. -/
structure Stand (lib : Externals) (c : Course) (app : App) (p : Process) (live : Role → Bool) : Prop where
  stopping : app.stopping = c.stopping
  servicesReady : app.servicesReady = c.servicesReady
  backQueue : p.node.queue.ready = c.backQueue
  opened : c.backQueue = true → c.opened = true
  sound : p.node.Sound lib
  vacant : c.opened = false → p.node.Vacant ∧ app.downloading = false
  drained : c.drained = true → p.node.Quiet
  timedOut : c.timedOut = true → .timedOut ∈ p.node.tasks.pcs
  heartbeat : c.beating = false ↔ app.heartbeat = .none
  beats : app.heartbeat.Beats
  joined : c.joined = true → c.stopping = true ∧ c.beating = false ∧ app.coordinationTask = false
  coordination : live .coordination = true → c.coordinating = true ∨ app.coordinationTask = true
  task : app.coordinationTask = true → c.opened = true
  coordinating : c.coordinating = true → c.opened = false ∧ c.stopping = false
  shutdown : live .shutdown = true → c.releasing = true ∧ c.released = false
  released : c.released = true → c.releasing = true
  releasing : c.releasing = true → c.joined = true ∧ c.timedOut = false ∧ (c.drained = true ∨ c.opened = false)

def Processes.live (s : Processes) (w : WorkerId) (role : Role) : Bool := (s.cluster.threads ⟨w, role⟩).isSome

abbrev Processes.Stands (lib : Externals) (s : Processes) (c : Course) (w : WorkerId) : Prop :=
  Stand lib c (s.apps w) (s.process w) (s.live w)

variable {c d : Course} {app : App} {p : Process} {live : Role → Bool} {s t : Processes} {w u : WorkerId}

/-- A process that has not done anything, or does nothing any more. -/
theorem stand_initial (main : Rest) (hp : p.node = .initial) : Stand lib {} { main } p (fun _ => false) where
  stopping := rfl
  servicesReady := rfl
  backQueue := by rw [hp]; rfl
  opened := nofun
  sound := by rw [hp]; exact Node.initial_sound
  vacant _ := ⟨by rw [hp]; exact ⟨rfl, rfl⟩, rfl⟩
  drained := nofun
  timedOut := nofun
  heartbeat := ⟨fun _ => rfl, fun _ => rfl⟩
  beats := trivial
  joined := nofun
  coordination := nofun
  task := nofun
  coordinating := nofun
  shutdown := nofun
  released := nofun
  releasing := nofun

/-- The event loop goes on by itself. -/
theorem Stand.continue (h : Stand lib c app p live) {p' : Process} (hn : Continues lib p.node p'.node)
    (hv : c.opened = false → p.node.Vacant → p'.node.Vacant) : Stand lib c app p' live :=
  { h with
    backQueue := hn.ready.trans h.backQueue
    sound := hn.sound h.sound
    vacant := fun ho => (h.vacant ho).imp_left (hv ho)
    drained := fun hd => hn.quiet (h.drained hd)
    timedOut := fun ht => hn.timedOut (h.timedOut ht) }

/-- Coroutines end. -/
theorem Stand.fewer (h : Stand lib c app p live) {live' : Role → Bool} (hl : ∀ role, live' role = true → live role = true) :
    Stand lib c app p live' :=
  { h with coordination := fun hc => h.coordination (hl _ hc), shutdown := fun hs => h.shutdown (hl _ hs) }

/-- What the application itself does not look at. -/
theorem Stand.sameApp (h : Stand lib c app p live) {app' : App} (hstopping : app'.stopping = app.stopping)
    (hservices : app'.servicesReady = app.servicesReady) (hdownloading : c.opened = false → app'.downloading = app.downloading)
    (hheartbeat : app'.heartbeat = app.heartbeat) (htask : app'.coordinationTask = app.coordinationTask) :
    Stand lib c app' p live := by
  constructor
  · rw [hstopping]; exact h.stopping
  · rw [hservices]; exact h.servicesReady
  · exact h.backQueue
  · exact h.opened
  · exact h.sound
  · exact fun ho => ⟨(h.vacant ho).1, (hdownloading ho).trans (h.vacant ho).2⟩
  · exact h.drained
  · exact h.timedOut
  · rw [hheartbeat]; exact h.heartbeat
  · rw [hheartbeat]; exact h.beats
  · rw [htask]; exact h.joined
  · rw [htask]; exact h.coordination
  · rw [htask]; exact h.task
  · exact h.coordinating
  · exact h.shutdown
  · exact h.released
  · exact h.releasing

/-! ## One operation -/

/-- An operation of another application. -/
structure Untouched (s t : Processes) (u : WorkerId) : Prop where
  apps : t.apps u = s.apps u
  process : t.process u = s.process u
  live : t.live u = s.live u

theorem Untouched.refl (s : Processes) (u : WorkerId) : Untouched s s u := ⟨rfl, rfl, rfl⟩

theorem Untouched.stands (h : Untouched s t u) (hs : s.Stands lib c u) : t.Stands lib c u := by
  unfold Processes.Stands
  rw [h.apps, h.process, h.live]
  exact hs

theorem Untouched.trans {r : Processes} (h : Untouched r s u) (h' : Untouched s t u) : Untouched r t u :=
  ⟨h'.apps.trans h.apps, h'.process.trans h.process, h'.live.trans h.live⟩

theorem untouched_setApp (s : Processes) (app : App) (hu : u ≠ w) : Untouched s (s.setApp w app) u :=
  ⟨Function.update_of_ne hu .., rfl, rfl⟩

theorem untouched_markDraining (s : Processes) (hu : u ≠ w) : Untouched s (s.markDraining w) u :=
  ⟨rfl, Function.update_of_ne hu .., rfl⟩

theorem untouched_spawn (s : Processes) (role : Role) (hu : u ≠ w) : Untouched s (s.spawn moves w role) u := by
  have hlive (body : Async Unit) (r : Role) : { s with cluster := s.cluster.spawn ⟨w, r⟩ body }.live u = s.live u := by
    funext role
    have hne : (⟨u, role⟩ : ThreadId) ≠ ⟨w, r⟩ := fun he => hu (congrArg ThreadId.worker he)
    exact congrArg Option.isSome (Function.update_of_ne hne ..)
  cases role with
  | coordination => exact ⟨rfl, rfl, hlive _ _⟩
  | shutdown => exact ⟨rfl, rfl, hlive _ _⟩

theorem untouched_act_node (h : s.act lib moves (.node w action) = some t) (hu : u ≠ w) : Untouched s t u := by
  obtain ⟨cluster, hstep, rfl⟩ := Option.map_eq_some_iff.mp h
  simp only [Cluster.step] at hstep
  split at hstep
  · obtain ⟨n', -, rfl⟩ := Option.map_eq_some_iff.mp hstep
    exact ⟨rfl, Function.update_of_ne hu .., rfl⟩
  · cases hstep

theorem untouched_ended (s : Processes) (outcome : Outcome) (awaitable : Awaitable) (hu : u ≠ w) :
    Untouched s (s.ended w outcome awaitable) u := by
  unfold Processes.ended
  split
  · cases awaitable with
    | brokerConnect => exact untouched_setApp s _ hu
    | componentStart component =>
      cases component with
      | downloader => exact untouched_setApp s _ hu
      | _ => exact .refl s u
    | upsertWorker => exact ⟨rfl, Function.update_of_ne hu .., rfl⟩
    | _ => exact ⟨rfl, rfl, rfl⟩
  · exact .refl s u

/-- What an application does leaves the others where they are. -/
theorem untouched_answer {outcome : Outcome} {call : AppCall} {r : call.Reply}
    (h : s.answer lib moves w outcome call = some (r, t)) (hu : u ≠ w) : Untouched s t u := by
  cases call with
  | await awaitable =>
    simp only [Processes.answer] at h
    split at h <;> cases h
    exact untouched_ended s outcome awaitable hu
  | begin role => cases h; exact untouched_spawn s role hu
  | setBackQueueReady | waitForDrain =>
    obtain ⟨t', hact, he⟩ := Option.map_eq_some_iff.mp h
    cases he
    exact untouched_act_node hact hu
  | markDraining => cases h; exact untouched_markDraining s hu
  | drained task =>
    simp only [Processes.answer] at h
    split at h <;> cases h <;> exact .refl s u
  | setStopping | setServicesReady | createHeartbeat => cases h; exact untouched_setApp s _ hu
  | cancelHeartbeat | joinHeartbeat =>
    simp only [Processes.answer] at h
    split at h <;> cases h <;> first | exact .refl s u | exact untouched_setApp s _ hu
  | joinCoordination =>
    simp only [Processes.answer] at h
    split at h <;> cases h
    exact untouched_setApp s _ hu
  | createCoordination =>
    simp only [Processes.answer] at h
    split at h <;> cases h
    · exact (untouched_spawn s .coordination hu).trans (untouched_setApp _ _ hu)
    · exact .refl s u
  | _ => cases h; exact .refl s u

/-! ## The operations of `start` -/

theorem process_act_node (h : s.act lib moves (.node w action) = some t) : ∃ n', (s.process w).node.step lib action = some n' ∧
    t.apps w = s.apps w ∧ t.process w = { s.process w with node := n' } ∧ t.live w = s.live w := by
  obtain ⟨cluster, hstep, rfl⟩ := Option.map_eq_some_iff.mp h
  simp only [Cluster.step] at hstep
  split at hstep
  · obtain ⟨n', hn, rfl⟩ := Option.map_eq_some_iff.mp hstep
    exact ⟨n', hn, rfl, Function.update_self .., rfl⟩
  · cases hstep

theorem continues_drain (lib : Externals) (n : Node) :
    Continues lib n { n with queue := { n.queue with draining := true } } :=
  @continues_step lib n _ .drain rfl nofun

theorem stands_markDraining (h : s.Stands lib c w) : (s.markDraining w).Stands lib c w := by
  unfold Processes.Stands
  have hprocess : (s.markDraining w).process w = { s.process w with
      status := .draining
      node := { (s.process w).node with queue := { (s.process w).node.queue with draining := true } } } :=
    Function.update_self ..
  rw [hprocess]
  exact h.continue (continues_drain lib _) (fun _ hv => hv)

theorem stands_setApp (h : Stand lib d app (s.process w) (s.live w)) : (s.setApp w app).Stands lib d w := by
  unfold Processes.Stands
  have happ : (s.setApp w app).apps w = app := Function.update_self ..
  rw [happ]
  exact h

/-- An awaited call that ends leaves the course as it is, or ends a coroutine. -/
theorem stands_ended (h : s.Stands lib c w) {awaitable : Awaitable} (hp : c.Permits (.await awaitable)) (outcome : Outcome) :
    (s.ended w outcome awaitable).Stands lib c w := by
  unfold Processes.ended
  split
  · cases awaitable with
    | brokerConnect => exact stands_setApp (h.sameApp rfl rfl (fun _ => rfl) rfl rfl)
    | componentStart component =>
      cases component with
      | downloader =>
        have hopened : c.opened = true := hp
        exact stands_setApp (h.sameApp rfl rfl (fun ho => by rw [hopened] at ho; cases ho) rfl rfl)
      | _ => exact h
    | upsertWorker status heartbeatAt =>
      have hprocess : (s.apply w (.upsertWorker status heartbeatAt)).process w = { s.process w with stage := .running } :=
        Function.update_self ..
      unfold Processes.Stands
      rw [hprocess]
      exact h.continue (.refl _) (fun _ hv => hv)
    | _ => exact h
  · exact h

theorem live_spawn (s : Processes) (w : WorkerId) (role r : Role) :
    (s.spawn moves w role).live w r = if r = role then true else s.live w r := by
  cases role <;> cases r <;> simp [Processes.live, Processes.spawn, State.spawn]

theorem spawn_eq (moves : BucketMoves) (s : Processes) (w : WorkerId) (role : Role) :
    (s.spawn moves w role).apps = s.apps ∧ (s.spawn moves w role).process = s.process := by
  cases role <;> exact ⟨rfl, rfl⟩

theorem stands_begin (h : s.Stands lib c w) {role : Role} (hp : c.Permits (.begin role)) :
    ∃ d, c.Follows (.begin role) () d ∧ (s.spawn moves w role).Stands lib d w := by
  obtain ⟨happs, hprocess⟩ := spawn_eq moves s w role
  unfold Processes.Stands
  rw [happs, hprocess]
  cases role with
  | coordination =>
    refine ⟨_, rfl, { h with
      coordination := fun _ => .inl rfl
      coordinating := fun _ => ⟨hp.1, hp.2.1⟩
      shutdown := fun hl => h.shutdown ?_ }⟩
    simpa [live_spawn] using hl
  | shutdown =>
    refine ⟨_, rfl, { h with
      coordination := fun hl => h.coordination ?_
      shutdown := fun _ => ⟨rfl, ?_⟩
      released := fun _ => rfl
      releasing := fun _ => hp.2 }⟩
    · simpa [live_spawn] using hl
    · by_contra hne
      have hreleasing := h.released (by simpa using hne)
      rw [hp.1] at hreleasing
      cases hreleasing

theorem stands_setBackQueueReady (h : s.Stands lib c w) {ready : Bool} (hp : c.Permits (.setBackQueueReady ready))
    (hact : s.act lib moves (.node w (.setReady ready)) = some t) :
    t.Stands lib { c with backQueue := ready, opened := c.opened || ready } w := by
  obtain ⟨n', hn, happs, hprocess, hlive⟩ := process_act_node hact
  cases hn
  have hsound : Node.Sound lib { (s.process w).node with queue := { (s.process w).node.queue with ready } } :=
    h.sound.step (@step_stepped lib _ _ (.setReady ready) rfl)
  have hquiet (hq : (s.process w).node.Quiet) :
      Node.Quiet { (s.process w).node with queue := { (s.process w).node.queue with ready } } :=
    hq.step (@step_stepped lib _ _ (.setReady ready) rfl)
  unfold Processes.Stands
  rw [happs, hprocess, hlive]
  cases ready with
  | true =>
    -- the back queue is started while nothing is stopping
    have hp : c.stopping = false ∧ c.coordinating = false := hp
    have hjoined : c.joined ≠ true := by
      intro hj
      rw [(h.joined hj).1] at hp
      cases hp.1
    exact { h with
      backQueue := rfl
      opened := fun _ => Bool.or_true _
      sound := hsound
      vacant := fun ho => by simp at ho
      drained := fun hd => hquiet (h.drained hd)
      task := fun _ => Bool.or_true _
      coordinating := fun hc => by rw [hp.2] at hc; cases hc
      releasing := fun hr => absurd (h.releasing hr).1 hjoined }
  | false =>
    have hopened : c.opened = true := hp
    exact { h with
      backQueue := rfl
      opened := nofun
      sound := hsound
      vacant := fun ho => by simp [hopened] at ho
      drained := fun hd => hquiet (h.drained hd)
      task := fun _ => by simp [hopened]
      coordinating := fun hc => by simpa using h.coordinating hc
      releasing := fun hr => by simpa using h.releasing hr }

theorem stands_waitForDrain (h : s.Stands lib c w) {timeout : Time} (hp : c.Permits (.waitForDrain timeout))
    (hact : s.act lib moves (.node w (.waitForDrain timeout)) = some t) : t.Stands lib c w := by
  obtain ⟨n', hn, happs, hprocess, hlive⟩ := process_act_node hact
  unfold Processes.Stands
  rw [happs, hprocess, hlive]
  exact h.continue (continues_step hn nofun) (fun ho => by rw [hp.1] at ho; cases ho)

/-- A result of `wait_for_drain` is a task that has finished. -/
theorem stands_drained (h : s.Stands lib c w) (hp : c.releasing = false) {result : Bool}
    (hdone : result = true → .drained ∈ (s.process w).node.tasks.pcs)
    (hover : result = false → .timedOut ∈ (s.process w).node.tasks.pcs) :
    s.Stands lib { c with drained := result, timedOut := !result } w :=
  { h with
    drained := fun hd => h.sound.drained (hdone hd)
    timedOut := fun ht => hover (by simpa using ht)
    releasing := fun hr => by rw [hp] at hr; cases hr }

theorem stands_cancelCoordination (h : s.Stands lib c w) (hp : c.Permits .cancelCoordination) :
    s.Stands lib { c with joined := !(s.apps w).coordinationTask } w :=
  { h with
    joined := fun hj => ⟨hp.1, hp.2.2, by simpa using hj⟩
    releasing := fun hr => ⟨by simp [(h.joined (h.releasing hr).1).2.2], (h.releasing hr).2⟩ }

theorem stands_joinCoordination (h : s.Stands lib c w) (hp : c.Permits .joinCoordination)
    (hdone : (s.cluster.threads ⟨w, .coordination⟩).isNone = true) :
    (s.setApp w { s.apps w with coordinationTask := false }).Stands lib { c with joined := true } w := by
  have hlive : s.live w .coordination = false := by simpa [Processes.live] using hdone
  exact stands_setApp { h with
    joined := fun _ => ⟨hp.1, hp.2.2, rfl⟩
    coordination := fun hl => by rw [hlive] at hl; cases hl
    task := nofun
    releasing := fun hr => ⟨rfl, (h.releasing hr).2⟩ }

/-- What `start` may do next leads to a point of its course again. -/
theorem stands_answer (h : s.Stands lib c w) {outcome : Outcome} {call : AppCall} {r : call.Reply} (hp : c.Permits call)
    (ha : s.answer lib moves w outcome call = some (r, t)) : ∃ d, c.Follows call r d ∧ t.Stands lib d w := by
  cases call with
  | await awaitable =>
    simp only [Processes.answer] at ha
    split at ha <;> cases ha
    rename_i hend
    have hstands := stands_ended h hp outcome
    cases awaitable with
    | finished role =>
      cases role with
      | coordination =>
        have hlive : s.live w .coordination = false := by simpa [Processes.live, Processes.canEnd] using hend
        have hsame : s.ended w outcome (.finished .coordination) = s := by
          unfold Processes.ended
          split <;> rfl
        rw [hsame]
        exact ⟨_, rfl, { h with
          coordination := fun hl => by rw [hlive] at hl; cases hl
          coordinating := nofun }⟩
      | shutdown =>
        have hlive : s.live w .shutdown = false := by simpa [Processes.live, Processes.canEnd] using hend
        have hsame : s.ended w outcome (.finished .shutdown) = s := by
          unfold Processes.ended
          split <;> rfl
        rw [hsame]
        exact ⟨_, rfl, { h with
          shutdown := fun hl => by rw [hlive] at hl; cases hl
          released := fun _ => hp }⟩
    | _ => exact ⟨c, rfl, hstands⟩
  | begin role => cases ha; exact stands_begin h hp
  | membership => cases ha; exact ⟨c, rfl, h⟩
  | isStopping => cases ha; exact ⟨c, ⟨h.stopping, rfl⟩, h⟩
  | setStopping =>
    cases ha
    refine ⟨_, rfl, stands_setApp { h with
      stopping := rfl
      joined := fun hj => ⟨rfl, (h.joined hj).2⟩
      coordinating := fun hc => ?_ }⟩
    rw [show c.coordinating = false from hp] at hc
    cases hc
  | servicesReady => cases ha; exact ⟨c, ⟨h.servicesReady, rfl⟩, h⟩
  | setServicesReady ready => cases ha; exact ⟨_, rfl, stands_setApp { h with servicesReady := rfl }⟩
  | backQueueReady => cases ha; exact ⟨c, ⟨h.backQueue, rfl⟩, h⟩
  | setBackQueueReady ready =>
    obtain ⟨t', hact, he⟩ := Option.map_eq_some_iff.mp ha
    cases he
    exact ⟨_, rfl, stands_setBackQueueReady h hp hact⟩
  | markDraining => cases ha; exact ⟨c, rfl, stands_markDraining h⟩
  | waitForDrain timeout =>
    obtain ⟨t', hact, he⟩ := Option.map_eq_some_iff.mp ha
    cases he
    exact ⟨c, rfl, stands_waitForDrain h hp hact⟩
  | drained task =>
    simp only [Processes.answer] at ha
    split at ha <;> cases ha
    · rename_i hpc
      exact ⟨_, rfl, stands_drained h hp (fun _ => List.mem_of_getElem? hpc) nofun⟩
    · rename_i hpc
      exact ⟨_, rfl, stands_drained h hp nofun (fun _ => List.mem_of_getElem? hpc)⟩
  | createHeartbeat =>
    cases ha
    refine ⟨_, rfl, stands_setApp { h with
      heartbeat := ⟨nofun, nofun⟩
      beats := beats_beat
      joined := fun hj => ?_ }⟩
    rw [show c.joined = false from hp.2] at hj
    cases hj
  | cancelHeartbeat =>
    have hbeating (hne : (s.apps w).heartbeat ≠ .none) : true = c.beating := by
      cases hb : c.beating with
      | true => rfl
      | false => exact absurd (h.heartbeat.mp hb) hne
    simp only [Processes.answer] at ha
    split at ha <;> cases ha
    · rename_i hnone
      exact ⟨c, ⟨(h.heartbeat.mpr hnone).symm, rfl⟩, h⟩
    · rename_i rest hrunning
      have hb := hbeating (by rw [hrunning]; nofun)
      refine ⟨c, ⟨hb, rfl⟩, stands_setApp { h with heartbeat := ⟨fun hf => ?_, nofun⟩, beats := ?_ }⟩
      · rw [← hb] at hf
        cases hf
      · have hbeats := h.beats
        rw [hrunning] at hbeats
        exact hbeats
    · rename_i hne _
      exact ⟨c, ⟨hbeating hne, rfl⟩, h⟩
  | joinHeartbeat =>
    simp only [Processes.answer] at ha
    split at ha <;> cases ha
    exact ⟨_, rfl, stands_setApp { h with
      heartbeat := ⟨fun _ => rfl, fun _ => rfl⟩
      beats := trivial
      joined := fun hj => ⟨(h.joined hj).1, rfl, (h.joined hj).2.2⟩ }⟩
  | cancelCoordination => cases ha; exact ⟨_, rfl, stands_cancelCoordination h hp⟩
  | joinCoordination =>
    simp only [Processes.answer] at ha
    split at ha <;> cases ha
    exact ⟨_, rfl, stands_joinCoordination h hp (by assumption)⟩
  | sleep => exact hp.elim
  | createCoordination => exact hp.elim

/-! ## The operations of `heartbeat` -/

/-- A heartbeat creates a coordination task only while nothing is stopping. -/
theorem stands_createCoordination (h : s.Stands lib c w) (hmay : s.mayCoordinate w = true) :
    ((s.spawn moves w .coordination).setApp w { s.apps w with coordinationTask := true }).Stands lib c w := by
  unfold Processes.mayCoordinate at hmay
  rw [h.stopping, h.backQueue, Bool.and_eq_true, Bool.and_eq_true, Bool.not_eq_true'] at hmay
  obtain ⟨⟨hstopping, hqueue⟩, -⟩ := hmay
  obtain ⟨happs, hprocess⟩ := spawn_eq moves s w .coordination
  apply stands_setApp
  rw [hprocess]
  refine { h with
    joined := fun hj => ?_
    coordination := fun _ => .inr rfl
    task := fun _ => h.opened hqueue
    shutdown := fun hl => h.shutdown ?_ }
  · rw [(h.joined hj).1] at hstopping
    cases hstopping
  · simpa [live_spawn] using hl

theorem stands_beats (h : s.Stands lib c w) {outcome : Outcome} {call : AppCall} {r : call.Reply} (hb : call.Beats)
    (ha : s.answer lib moves w outcome call = some (r, t)) :
    t.Stands lib c w ∧ (t.apps w).heartbeat = (s.apps w).heartbeat ∧ (t.apps w).main = (s.apps w).main := by
  cases call with
  | await awaitable =>
    cases awaitable with
    | upsertWorker status heartbeatAt =>
      cases ha
      refine ⟨?_, ?_⟩
      · unfold Processes.ended
        split
        · have hprocess : (s.apply w (.upsertWorker status heartbeatAt)).process w =
              { s.process w with stage := .running } := Function.update_self ..
          unfold Processes.Stands
          rw [hprocess]
          exact h.continue (.refl _) (fun _ hv => hv)
        · exact h
      · unfold Processes.ended
        split <;> exact ⟨rfl, rfl⟩
    | _ => exact hb.elim
  | membership | sleep => cases ha; exact ⟨h, rfl, rfl⟩
  | createCoordination =>
    simp only [Processes.answer] at ha
    split at ha <;> cases ha
    · rename_i hmay
      exact ⟨stands_createCoordination h hmay, by simp [Processes.setApp], by simp [Processes.setApp]⟩
    · exact ⟨h, rfl, rfl⟩
  | _ => exact hb.elim

/-- With a heartbeat there is no release. -/
theorem Stand.not_releasing (h : Stand lib c app p live) (hheart : app.heartbeat ≠ .none) : c.releasing = false := by
  by_contra hr
  have hr : c.releasing = true := by simpa using hr
  exact hheart (h.heartbeat.mp (h.joined (h.releasing hr).1).2.1)

theorem Stand.beat (h : Stand lib c app p live) {heartbeat : Heartbeat} (hsome : app.heartbeat ≠ .none)
    (hbeats : heartbeat.Beats) (hne : heartbeat ≠ .none) : Stand lib c { app with heartbeat } p live :=
  { h with
    heartbeat := ⟨fun hb => absurd (h.heartbeat.mp hb) hsome, fun hn => absurd hn hne⟩
    beats := hbeats }

theorem stands_stepBeat (h : s.Stands lib c w) {outcome : Outcome} (hs : s.stepBeat lib moves w outcome = some t) :
    t.Stands lib c w ∧ (t.apps w).main = (s.apps w).main := by
  have hbeats := h.beats
  simp only [Processes.stepBeat] at hs
  split at hs
  · rename_i a hrest
    cases hs
    exact ⟨stands_setApp (h.beat (by rw [hrest]; nofun) beats_beat nofun), by simp [Processes.setApp]⟩
  · rename_i call k hrest
    rw [hrest] at hbeats
    obtain ⟨⟨r, t'⟩, ha, rfl⟩ := Option.map_eq_some_iff.mp hs
    obtain ⟨hstands, hheart, hmain⟩ := stands_beats h hbeats.1 ha
    refine ⟨stands_setApp (hstands.beat ?_ (hbeats.2 r trivial) nofun), by simp [Processes.setApp, hmain]⟩
    rw [hheart, hrest]
    nofun
  · rename_i awaitable k hrest
    cases hs
    rw [hrest] at hbeats
    have hpermits : c.Permits (.await awaitable) := by
      have hcall := hbeats.1
      cases awaitable with
      | upsertWorker => exact h.not_releasing (by rw [hrest]; nofun)
      | _ => exact hcall.elim
    have hsame : ((s.ended w outcome awaitable).apps w).heartbeat = (s.apps w).heartbeat ∧
        ((s.ended w outcome awaitable).apps w).main = (s.apps w).main := by
      have hcall := hbeats.1
      cases awaitable with
      | upsertWorker =>
        unfold Processes.ended
        split <;> exact ⟨rfl, rfl⟩
      | _ => exact hcall.elim
    refine ⟨stands_setApp ((stands_ended h hpermits outcome).beat ?_ trivial nofun), by simp [Processes.setApp, hsame.2]⟩
    rw [hsame.1, hrest]
    nofun
  · rename_i rest _ hrest
    cases hs
    exact ⟨stands_setApp (h.beat (by rw [hrest]; nofun) trivial nofun), by simp [Processes.setApp]⟩
  · cases hs

/-! ## Steps -/

/-- A process at a point of its course, and what `start` has left to do. -/
structure Processes.At (lib : Externals) (s : Processes) (w : WorkerId) (c : Course) : Prop where
  stands : s.Stands lib c w
  main : s.alive w → Coro.Keeps Course.rules (fun r d => Ending r.1 r.2 d) (s.apps w).main c

/-- The release was begun, or the process exited. -/
def Processes.Retired (s : Processes) (w : WorkerId) (c : Course) : Prop :=
  c.releasing = true ∨ (¬ s.alive w ∧ c = {} ∧ (s.apps w).coordinationTask = false)

/-- What the application of a worker does not notice. -/
structure Passes (lib : Externals) (s t : Processes) (w : WorkerId) : Prop where
  apps : t.apps w = s.apps w
  continues : Continues lib (s.process w).node (t.process w).node
  vacant : (s.apps w).downloading = false → (s.process w).node.Vacant → (t.process w).node.Vacant
  stage : (t.process w).stage = (s.process w).stage
  live : ∀ role, t.live w role = true → s.live w role = true

theorem Untouched.passes (h : Untouched s t w) : Passes lib s t w where
  apps := h.apps
  continues := by rw [h.process]; exact .refl _
  vacant _ := by rw [h.process]; exact id
  stage := by rw [h.process]
  live role := by rw [h.live]; exact id

theorem Passes.alive (h : Passes lib s t w) : t.alive w ↔ s.alive w := by
  unfold Processes.alive
  rw [h.stage]

theorem Passes.at (h : Passes lib s t w) (hs : s.At lib w c) :
    t.At lib w c ∧ (s.Retired w c → t.Retired w c) := by
  refine ⟨⟨?_, fun ha => ?_⟩, Or.imp_right fun hd => ⟨fun ha => hd.1 (h.alive.mp ha), hd.2.1, by rw [h.apps]; exact hd.2.2⟩⟩
  · unfold Processes.Stands
    rw [h.apps]
    exact (hs.stands.continue h.continues (fun ho => h.vacant (hs.stands.vacant ho).2)).fewer h.live
  · rw [h.apps]
    exact hs.main (h.alive.mp ha)

theorem passes_tick (h : s.act lib moves (.tick now) = some t) (w : WorkerId) : Passes lib s t w := by
  obtain ⟨cluster, hstep, rfl⟩ := Option.map_eq_some_iff.mp h
  simp only [Cluster.step] at hstep
  split at hstep <;> cases hstep
  exact ⟨rfl, continues_now _ _, fun _ hv => hv, rfl, fun _ => id⟩

theorem continues_execute {thread : ThreadId} {call : Call} {r : call.Reply} {x x' : Shared}
    (h : x.execute lib thread call = some (r, x')) (w : WorkerId) :
    Continues lib (x.processes w).node (x'.processes w).node ∧
      ((x.processes w).node.Vacant → (x'.processes w).node.Vacant) := by
  obtain hp | ⟨assignments, -, -, -, hp⟩ := Regime.process_execute h w
  · rw [hp]
    exact ⟨.refl _, id⟩
  · rw [hp]
    exact ⟨@continues_step lib _ _ (.setBuckets assignments) rfl nofun, id⟩

theorem passes_run {thread : ThreadId} (h : s.act lib moves (.run thread) = some t) (w : WorkerId) : Passes lib s t w := by
  obtain ⟨cluster, hstep, rfl⟩ := Option.map_eq_some_iff.mp h
  obtain ⟨a, ha, rfl⟩ | ⟨call, k, r, x, ha, hexec, rfl⟩ := State.run_cases hstep
  · refine ⟨rfl, .refl _, fun _ => id, rfl, fun role hl => ?_⟩
    by_cases he : (⟨w, role⟩ : ThreadId) = thread
    · simp [Processes.live, he] at hl
    · simpa [Processes.live, he] using hl
  · obtain ⟨hcontinues, hvacant⟩ := continues_execute hexec w
    refine ⟨rfl, hcontinues, fun _ => hvacant, Regime.stage_execute hexec w, fun role hl => ?_⟩
    by_cases he : (⟨w, role⟩ : ThreadId) = thread
    · simp [Processes.live, he, ha]
    · simpa [Processes.live, he] using hl

theorem passes_abort {thread : ThreadId} (h : s.act lib moves (.abort thread) = some t) (w : WorkerId) :
    Passes lib s t w := by
  obtain ⟨cluster, hstep, rfl⟩ := Option.map_eq_some_iff.mp h
  simp only [Cluster.step] at hstep
  split at hstep <;> cases hstep
  have hprocess : (if s.cluster.shared.lock = some thread then { s.cluster.shared with lock := none } else
      s.cluster.shared).processes = s.cluster.shared.processes := by split <;> rfl
  refine ⟨rfl, ?_, fun _ => ?_, ?_, fun role hl => ?_⟩
  · simp only [Processes.process, hprocess]
    exact .refl _
  · simp only [Processes.process, hprocess]
    exact id
  · simp only [Processes.process, hprocess]
  · by_cases he : (⟨w, role⟩ : ThreadId) = thread
    · simp [Processes.live, he] at hl
    · simpa [Processes.live, he] using hl

/-- A task of the event loop is no business of the application. -/
theorem passes_node (h : s.act lib moves (.node w action) = some t)
    (htask : Processes.ofTask (s.apps w).downloading action = true) : Passes lib s t w := by
  obtain ⟨n', hn, happs, hprocess, hlive⟩ := process_act_node h
  refine ⟨happs, ?_, fun hd hv => ?_, by rw [hprocess], fun role => by rw [hlive]; exact id⟩
  · rw [hprocess]
    apply continues_step hn
    rintro b rfl
    cases htask
  · rw [hprocess]
    apply vacant_step hn hv
    · rintro rfl
      rw [show (s.apps w).downloading = true from htask] at hd
      cases hd
    · rintro timeout rfl
      cases htask

/-! ## The invariant -/

theorem untouched_stepMain {outcome : Outcome} (h : s.stepMain lib moves w outcome = some t) (hu : u ≠ w) :
    Untouched s t u := by
  simp only [Processes.stepMain] at h
  split at h
  · cases h
  · obtain ⟨⟨r, t'⟩, hanswer, rfl⟩ := Option.map_eq_some_iff.mp h
    exact (untouched_answer hanswer hu).trans (untouched_setApp _ _ hu)

theorem untouched_stepBeat {outcome : Outcome} (h : s.stepBeat lib moves w outcome = some t) (hu : u ≠ w) :
    Untouched s t u := by
  simp only [Processes.stepBeat] at h
  split at h
  · cases h
    exact untouched_setApp s _ hu
  · obtain ⟨⟨r, t'⟩, hanswer, rfl⟩ := Option.map_eq_some_iff.mp h
    exact (untouched_answer hanswer hu).trans (untouched_setApp _ _ hu)
  · cases h
    exact (untouched_ended s outcome _ hu).trans (untouched_setApp _ _ hu)
  · cases h
    exact untouched_setApp s _ hu
  · cases h

/-- A release is only left behind by leaving the process. -/
theorem Course.releasing_follows {call : AppCall} {r : call.Reply} (hf : c.Follows call r d)
    (hr : c.releasing = true) : d.releasing = true := by
  cases call with
  | await awaitable =>
    cases awaitable with
    | finished role => cases role <;> cases hf <;> exact hr
    | _ => cases hf; exact hr
  | begin role => cases role <;> cases hf <;> first | exact hr | rfl
  | isStopping | servicesReady | backQueueReady | cancelHeartbeat => rw [hf.2]; exact hr
  | _ => cases hf; exact hr

/-- `start` issued an operation its course permits, and is where the answer leads. -/
theorem at_stepMain {outcome : Outcome} (h : s.At lib w c) (ha : s.alive w)
    (hs : s.stepMain lib moves w outcome = some t) :
    ∃ (call : AppCall) (k : call.Reply → Rest) (r : call.Reply) (t' : Processes) (d : Course),
      (s.apps w).main = .await call k ∧ c.Permits call ∧ s.answer lib moves w outcome call = some (r, t') ∧
      t.cluster = t'.cluster ∧ c.Follows call r d ∧ t.At lib w d := by
  have hmain := h.main ha
  simp only [Processes.stepMain] at hs
  split at hs
  · cases hs
  · rename_i call k hrest
    rw [hrest] at hmain
    obtain ⟨⟨r, t'⟩, hanswer, rfl⟩ := Option.map_eq_some_iff.mp hs
    obtain ⟨d, hfollows, hstands⟩ := stands_answer h.stands hmain.1 hanswer
    refine ⟨call, k, r, t', d, hrest, hmain.1, hanswer, rfl, hfollows,
      stands_setApp (hstands.sameApp rfl rfl (fun _ => rfl) rfl rfl), fun _ => ?_⟩
    simpa [Processes.setApp] using hmain.2 r d hfollows

theorem at_kill (h : s.step lib moves (.kill w) = some t) : t.At lib w {} ∧ t.Retired w {} := by
  cases h
  have hprocess : ((s.cluster.shared.setProcess w { stage := .stopped }).processes w) = { stage := .stopped } :=
    Function.update_self ..
  have hdead : ¬ (((s.cluster.shared.setProcess w { stage := .stopped }).processes w).stage ≠ .stopped) := by
    rw [hprocess]
    exact fun hne => hne rfl
  refine ⟨⟨stands_setApp ?_, fun ha => absurd ha hdead⟩, .inr ⟨hdead, rfl, by simp [Processes.setApp]⟩⟩
  have hstand : Stand lib {} { main := .ret (.ok (), ()) }
      ((s.cluster.shared.setProcess w { stage := .stopped }).processes w) (fun _ => false) :=
    stand_initial _ (by rw [hprocess])
  exact hstand.fewer (fun role hl => by simp [Processes.live] at hl)

theorem untouched_kill (h : s.step lib moves (.kill w) = some t) (hu : u ≠ w) : Untouched s t u := by
  cases h
  refine ⟨Function.update_of_ne hu .., Function.update_of_ne hu .., ?_⟩
  funext role
  simp [Processes.live, Processes.setApp, hu]

/-- A signal drains the worker. -/
theorem at_signal (h : s.At lib w c) (hs : s.step lib moves (.signal w) = some t) :
    t.At lib w c ∧ (s.Retired w c → t.Retired w c) := by
  simp only [Processes.step] at hs
  split at hs <;> cases hs
  rename_i ha
  refine ⟨⟨stands_setApp ((stands_markDraining h.stands).sameApp rfl rfl (fun _ => rfl) rfl rfl), fun _ => ?_⟩, ?_⟩
  · simpa [Processes.setApp] using h.main ha
  · exact Or.imp_right fun hd => absurd ha hd.1

theorem untouched_signal (hs : s.step lib moves (.signal w) = some t) (hu : u ≠ w) : Untouched s t u := by
  simp only [Processes.step] at hs
  split at hs <;> cases hs
  exact (untouched_markDraining s hu).trans (untouched_setApp _ _ hu)

/-- Only `start` and the end of its process bring a process to another point. -/
theorem at_step_same {a : ProcessAction} (hs : s.step lib moves a = some t) (h : s.At lib w c)
    (hmain : ∀ outcome, a ≠ .main w outcome) (hkill : a ≠ .kill w) :
    t.At lib w c ∧ (s.Retired w c → t.Retired w c) := by
  cases a with
  | tick => exact (passes_tick hs w).at h
  | run => exact (passes_run hs w).at h
  | abort => exact (passes_abort hs w).at h
  | lockExpires =>
    cases hs
    exact Passes.at ⟨rfl, .refl _, fun _ => id, rfl, fun _ => id⟩ h
  | node u action =>
    simp only [Processes.step] at hs
    split at hs
    · rename_i htask
      by_cases hu : w = u
      · subst hu
        exact (passes_node hs htask).at h
      · exact (untouched_act_node hs hu).passes.at h
    · cases hs
  | main u outcome =>
    simp only [Processes.step] at hs
    split at hs
    · have hu : w ≠ u := fun he => hmain outcome (by rw [he])
      exact (untouched_stepMain hs hu).passes.at h
    · cases hs
  | beat u outcome =>
    simp only [Processes.step] at hs
    split at hs
    · rename_i ha
      by_cases hu : w = u
      · subst hu
        obtain ⟨hstands, hsame⟩ := stands_stepBeat h.stands hs
        exact ⟨⟨hstands, fun _ => by rw [hsame]; exact h.main ha⟩,
          fun hret => .inl (hret.resolve_right fun hdead => hdead.1 ha)⟩
      · exact (untouched_stepBeat hs hu).passes.at h
    · cases hs
  | signal u =>
    by_cases hu : w = u
    · subst hu
      exact at_signal h hs
    · exact (untouched_signal hs hu).passes.at h
  | kill u => exact (untouched_kill hs (fun he => hkill (by rw [he]))).passes.at h

/-- Every step leads a process to a point of its course, and nobody comes back
from a release or an exit. -/
theorem at_step {a : ProcessAction} (hs : s.step lib moves a = some t) (h : s.At lib w c) :
    ∃ d, t.At lib w d ∧ (s.Retired w c → t.Retired w d) := by
  by_cases hmain : ∃ outcome, a = .main w outcome
  · obtain ⟨outcome, rfl⟩ := hmain
    simp only [Processes.step] at hs
    split at hs
    · rename_i ha
      obtain ⟨call, k, r, t', d, -, -, -, -, hf, hd⟩ := at_stepMain h ha hs
      exact ⟨d, hd, fun hret => .inl (Course.releasing_follows hf (hret.resolve_right fun hdead => hdead.1 ha))⟩
    · cases hs
  · by_cases hkill : a = .kill w
    · subst hkill
      obtain ⟨hat, hret⟩ := at_kill hs
      exact ⟨{}, hat, fun _ => hret⟩
    · exact ⟨c, at_step_same hs h (fun outcome he => hmain ⟨outcome, he⟩) hkill⟩

theorem at_of_reaches {setup : WorkerId → Setup} {P : Processes → ProcessAction → Prop}
    (h : Reaches (Processes.step lib moves) P (.initial setup) s) (w : WorkerId) : ∃ c, s.At lib w c := by
  refine h.invariant (fun s => ∃ c, s.At lib w c) ⟨{}, stand_initial _ rfl, fun _ => keeps_start (setup w)⟩ ?_
  rintro s a t ⟨c, hc⟩ - hs
  obtain ⟨d, hd, -⟩ := at_step hs hc
  exact ⟨d, hd⟩

/-! ## Release is final -/

theorem Processes.Retired.no_work (hret : s.Retired w c) (h : s.At lib w c) (b : Nat) : ¬ (s.process w).node.Works lib b := by
  have hor : (s.process w).node.Quiet ∨ (s.process w).node.Vacant := by
    obtain hr | ⟨-, rfl, -⟩ := hret
    · exact (h.stands.releasing hr).2.2.imp h.stands.drained (fun ho => (h.stands.vacant ho).1)
    · exact .inr (h.stands.vacant rfl).1
  obtain hquiet | hvacant := hor
  · exact fun hwork => hwork.elim (hquiet.no_work b).1 (fun ho => ho (hquiet.no_work b).2)
  · exact hvacant.no_work b

theorem Processes.Retired.alone (hret : s.Retired w c) (h : s.At lib w c) :
    (s.apps w).heartbeat = .none ∧ s.cluster.threads ⟨w, .coordination⟩ = none := by
  have hlive (hcoordinating : c.coordinating = false) (htask : (s.apps w).coordinationTask = false) :
      s.cluster.threads ⟨w, .coordination⟩ = none := by
    by_contra hne
    have hsome : s.live w .coordination = true := Option.isSome_iff_ne_none.mpr hne
    have := h.stands.coordination hsome
    rw [hcoordinating, htask] at this
    simp at this
  obtain hr | ⟨-, rfl, htask⟩ := hret
  · obtain ⟨hstopping, hbeating, htask⟩ := h.stands.joined (h.stands.releasing hr).1
    refine ⟨h.stands.heartbeat.mp hbeating, hlive ?_ htask⟩
    by_contra hc
    rw [(h.stands.coordinating (by simpa using hc)).2] at hstopping
    cases hstopping
  · exact ⟨h.stands.heartbeat.mp rfl, hlive rfl htask⟩

/-- Only `upsert_worker` adds records of workers, each worker its own. -/
theorem workers_ended {outcome : Outcome} {awaitable : Awaitable} {x : WorkerModel}
    (hx : x ∈ (s.ended u outcome awaitable).cluster.shared.db.workers.records) :
    x ∈ s.cluster.shared.db.workers.records ∨
      (x.id = u ∧ ∃ status heartbeatAt, awaitable = .upsertWorker status heartbeatAt) := by
  unfold Processes.ended at hx
  split at hx
  · cases awaitable with
    | upsertWorker status heartbeatAt =>
      obtain rfl | ⟨hold, -⟩ := Workers.mem_upsertWorker.mp hx
      · exact .inr ⟨rfl, _, _, rfl⟩
      · exact .inl hold
    | componentStart component => cases component <;> exact .inl hx
    | _ => exact .inl hx
  · exact .inl hx

theorem workers_answer {outcome : Outcome} {call : AppCall} {r : call.Reply}
    (h : s.answer lib moves u outcome call = some (r, t)) {x : WorkerModel}
    (hx : x ∈ t.cluster.shared.db.workers.records) :
    x ∈ s.cluster.shared.db.workers.records ∨
      (x.id = u ∧ ∃ status heartbeatAt, call = .await (.upsertWorker status heartbeatAt)) := by
  have hact {action : Action} {t' : Processes} (ha : s.act lib moves (.node u action) = some t')
      (hx : x ∈ t'.cluster.shared.db.workers.records) : x ∈ s.cluster.shared.db.workers.records := by
    obtain ⟨cluster, hstep, rfl⟩ := Option.map_eq_some_iff.mp ha
    simp only [Cluster.step] at hstep
    split at hstep
    · obtain ⟨n', -, rfl⟩ := Option.map_eq_some_iff.mp hstep
      exact hx
    · cases hstep
  cases call with
  | await awaitable =>
    simp only [Processes.answer] at h
    split at h <;> cases h
    obtain hold | ⟨hid, status, heartbeatAt, rfl⟩ := workers_ended hx
    · exact .inl hold
    · exact .inr ⟨hid, status, heartbeatAt, rfl⟩
  | begin role => cases h; cases role <;> exact .inl hx
  | setBackQueueReady | waitForDrain =>
    obtain ⟨t', ha, he⟩ := Option.map_eq_some_iff.mp h
    cases he
    exact .inl (hact ha hx)
  | drained | cancelHeartbeat | joinHeartbeat | joinCoordination | createCoordination =>
    simp only [Processes.answer] at h
    split at h <;> cases h <;> exact .inl hx
  | _ => cases h; exact .inl hx

/-- Nobody writes the record of a worker that was released. -/
theorem workers_step {a : ProcessAction} (hs : s.step lib moves a = some t) (h : s.At lib w c) (hret : s.Retired w c)
    {x : WorkerModel} (hx : x ∈ t.cluster.shared.db.workers.records) (hid : x.id = w) :
    x ∈ s.cluster.shared.db.workers.records := by
  cases a with
  | main u outcome =>
    simp only [Processes.step] at hs
    split at hs
    · rename_i ha
      simp only [Processes.stepMain] at hs
      split at hs
      · cases hs
      · rename_i call k hrest
        obtain ⟨⟨r, t'⟩, hanswer, rfl⟩ := Option.map_eq_some_iff.mp hs
        refine (workers_answer hanswer hx).resolve_right ?_
        rintro ⟨hxu, status, heartbeatAt, rfl⟩
        obtain rfl := hxu.symm.trans hid
        have hmain := h.main ha
        rw [hrest] at hmain
        have hreleasing := hret.resolve_right (fun hdead => hdead.1 ha)
        rw [show c.releasing = false from hmain.1] at hreleasing
        cases hreleasing
    · cases hs
  | beat u outcome =>
    simp only [Processes.step] at hs
    split at hs
    · by_cases hu : u = w
      · subst hu
        rw [Processes.stepBeat, (hret.alone h).1] at hs
        cases hs
      · simp only [Processes.stepBeat] at hs
        split at hs
        · cases hs; exact hx
        · obtain ⟨⟨r, t'⟩, hanswer, rfl⟩ := Option.map_eq_some_iff.mp hs
          exact (workers_answer hanswer hx).resolve_right (fun hnew => hu (hnew.1.symm.trans hid))
        · rename_i awaitable k hrest
          cases hs
          exact (workers_ended hx).resolve_right (fun hnew => hu (hnew.1.symm.trans hid))
        · cases hs; exact hx
        · cases hs
    · cases hs
  | run thread =>
    obtain ⟨cluster, hstep, rfl⟩ := Option.map_eq_some_iff.mp hs
    obtain ⟨a, ha, rfl⟩ | ⟨call, k, r, y, ha, hexec, rfl⟩ := State.run_cases hstep
    · exact hx
    · exact Regime.workers_execute hexec x hx
  | tick =>
    obtain ⟨cluster, hstep, rfl⟩ := Option.map_eq_some_iff.mp hs
    simp only [Cluster.step] at hstep
    split at hstep <;> cases hstep
    exact hx
  | abort thread =>
    obtain ⟨cluster, hstep, rfl⟩ := Option.map_eq_some_iff.mp hs
    simp only [Cluster.step] at hstep
    split at hstep <;> cases hstep
    dsimp only at hx
    split at hx <;> exact hx
  | node u action =>
    simp only [Processes.step] at hs
    split at hs
    · obtain ⟨cluster, hstep, rfl⟩ := Option.map_eq_some_iff.mp hs
      simp only [Cluster.step] at hstep
      split at hstep
      · obtain ⟨n', -, rfl⟩ := Option.map_eq_some_iff.mp hstep
        exact hx
      · cases hstep
    · cases hs
  | signal u =>
    simp only [Processes.step] at hs
    split at hs <;> cases hs
    exact hx
  | lockExpires | kill => cases hs; exact hx

/-- Once the release of a worker was begun, it has no work and gets none, no
heartbeat and no coordination of it runs, and its membership is not renewed. -/
theorem release_final (lib : Externals) (moves : BucketMoves) (setup : WorkerId → Setup) (w : WorkerId) (s : Processes)
    (h : Reaches (Processes.step lib moves) Free (.initial setup) s)
    (hbegun : (s.cluster.threads ⟨w, .shutdown⟩).isSome) (t : Processes) (ht : Reaches (Processes.step lib moves) Free s t) :
    (∀ b, ¬ (t.process w).node.Works lib b) ∧
    (t.apps w).heartbeat = .none ∧ t.cluster.threads ⟨w, .coordination⟩ = none ∧
    ∀ r ∈ t.cluster.shared.db.workers.records, r.id = w → r ∈ s.cluster.shared.db.workers.records := by
  obtain ⟨c, hc⟩ := at_of_reaches h w
  have hret : s.Retired w c := .inl (hc.stands.shutdown hbegun).1
  obtain ⟨d, hd, hret, hrecords⟩ := ht.invariant (fun t => ∃ d, t.At lib w d ∧ t.Retired w d ∧
      ∀ r ∈ t.cluster.shared.db.workers.records, r.id = w → r ∈ s.cluster.shared.db.workers.records)
    ⟨c, hc, hret, fun _ hr _ => hr⟩ (by
      rintro t a t' ⟨d, hd, hret, hrecords⟩ - hs
      obtain ⟨d', hd', hret'⟩ := at_step hs hd
      exact ⟨d', hd', hret' hret, fun r hr hid => hrecords r (workers_step hs hd hret hr hid) hid⟩)
  exact ⟨hret.no_work hd, (hret.alone hd).1, (hret.alone hd).2, hrecords⟩

/-- The actions that take `start` to the end of the worker's registration. -/
def registering (w : WorkerId) : List ProcessAction :=
  List.replicate (4 + BUCKET_COUNT + 2) (.main w .done)

/-- A worker registers and fails to coordinate, so it is released. -/
theorem release_final_registered : ∃ s, Reaches (Processes.step site .all) Free (.initial fun _ => ⟨[], [], []⟩) s ∧
    (∃ r ∈ s.cluster.shared.db.workers.records, r.id = "a") ∧
    ∀ t, Reaches (Processes.step site .all) Free s t →
      (∀ b, ¬ (t.process "a").node.Works site b) ∧
      (t.apps "a").heartbeat = .none ∧ t.cluster.threads ⟨"a", .coordination⟩ = none ∧
      ∀ r ∈ t.cluster.shared.db.workers.records, r.id = "a" → r ∈ s.cluster.shared.db.workers.records := by
  obtain ⟨s, hs, htest⟩ := exists_reaches_free (Processes.step site .all) (.initial fun _ => ⟨[], [], []⟩)
    (registering "a" ++ [.main "a" .done, .abort ⟨"a", .coordination⟩, .main "a" (.failed .lockAcquisition false)] ++
      List.replicate 5 (.main "a" .done) ++ [.beat "a" .done] ++ List.replicate 9 (.main "a" .done))
    (fun s => (s.cluster.threads ⟨"a", .shutdown⟩).isSome ∧ s.cluster.shared.db.workers.records.any (fun r => r.id = "a"))
    (by decide +kernel)
  obtain ⟨hbegun, hrecord⟩ := of_decide_eq_true htest
  obtain ⟨r, hr, hid⟩ := List.any_eq_true.mp hrecord
  exact ⟨s, hs, ⟨r, hr, of_decide_eq_true hid⟩, release_final site .all _ "a" s hs hbegun⟩

/-! ## A normal return -/

/-- `start` returned without raising. -/
def returned : Rest → Bool
  | .ret (.ok (), ()) => true
  | _ => false

end Linksurf.Application
