import Linksurf.Application

/-!
# The course of an application

What `start` and `shutdown` may do depends on how far they have come. The rules
say what must hold before each operation and what its answer changes; that the
text keeps to them is read off from its end to its start.
-/
namespace Linksurf.Application

open Coroutine Monitor

/-- How far `start` has come. -/
structure Course where
  servicesReady : Bool := false
  /-- `back_queue.ready`. -/
  backQueue : Bool := false
  /-- The back queue was started. -/
  opened : Bool := false
  stopping : Bool := false
  /-- `start` awaits a `coordinate` of its own. -/
  coordinating : Bool := false
  /-- There may be a heartbeat. -/
  beating : Bool := false
  /-- The coordination task of the heartbeat is over. -/
  joined : Bool := false
  drained : Bool := false
  timedOut : Bool := false
  /-- `release` was begun. -/
  releasing : Bool := false
  /-- `release` has ended. -/
  released : Bool := false
  deriving DecidableEq

namespace Course

/-- What must hold before an operation of `start`. -/
def Permits (c : Course) : AppCall → Prop
  | .await (.upsertWorker _ _) | .membership => c.releasing = false
  | .await (.componentStart _) => c.opened = true
  | .await (.finished .coordination) => c.coordinating = true
  | .await (.finished .shutdown) => c.releasing = true
  | .begin .coordination => c.opened = false ∧ c.stopping = false ∧ c.coordinating = false
  | .begin .shutdown => c.releasing = false ∧ c.joined = true ∧ c.timedOut = false ∧ (c.drained = true ∨ c.opened = false)
  | .setStopping => c.coordinating = false
  | .setBackQueueReady ready => if ready then c.stopping = false ∧ c.coordinating = false else c.opened = true
  | .waitForDrain _ => c.opened = true ∧ c.stopping = true ∧ c.releasing = false
  | .drained _ => c.releasing = false
  | .createHeartbeat => c.stopping = false ∧ c.joined = false
  | .cancelCoordination | .joinCoordination => c.stopping = true ∧ c.coordinating = false ∧ c.beating = false
  | .sleep _ | .createCoordination => False
  | _ => True

/-- What an answer makes of the course. -/
def Follows (c : Course) : (call : AppCall) → call.Reply → Course → Prop
  | .await (.finished .coordination), _, d => d = { c with coordinating := false }
  | .await (.finished .shutdown), _, d => d = { c with released := true }
  | .begin .coordination, _, d => d = { c with coordinating := true }
  | .begin .shutdown, _, d => d = { c with releasing := true }
  | .isStopping, reply, d => reply = c.stopping ∧ d = c
  | .setStopping, _, d => d = { c with stopping := true }
  | .servicesReady, reply, d => reply = c.servicesReady ∧ d = c
  | .setServicesReady ready, _, d => d = { c with servicesReady := ready }
  | .backQueueReady, reply, d => reply = c.backQueue ∧ d = c
  | .setBackQueueReady ready, _, d => d = { c with backQueue := ready, opened := c.opened || ready }
  | .drained _, reply, d => d = { c with drained := reply, timedOut := !reply }
  | .createHeartbeat, _, d => d = { c with beating := true }
  | .cancelHeartbeat, reply, d => reply = c.beating ∧ d = c
  | .joinHeartbeat, _, d => d = { c with beating := false }
  | .cancelCoordination, reply, d => d = { c with joined := !reply }
  | .joinCoordination, _, d => d = { c with joined := true }
  | _, _, d => d = c

def rules : Coro.Rules AppCall AppCall.Reply Course := ⟨Permits, Follows⟩

end Course

open Course (rules)

variable {c : Course} {E : Type}

/-- The program keeps to the rules from here, and ends as `Q` says. -/
abbrev Keeps {α : Type} (Q : Except Failure α → Unit → Course → Prop) (x : Task α) (c : Course) : Prop :=
  Proc.Keeps rules Q x () c

/-! ## Awaited calls -/

/-- Calls that need nothing and change nothing. -/
def Awaitable.Plain (c : Course) (awaitable : Awaitable) : Prop := rules.Ignores c (.await awaitable)

theorem keeps_await {Q : Except Failure Unit → Unit → Course → Prop} {awaitable : Awaitable}
    (h : awaitable.Plain c) (hQ : ∀ r, Q r () c) : Keeps Q (await awaitable) c := by
  apply Proc.keeps_ask h
  intro r
  rw [Proc.keeps_value]
  exact hQ r

theorem keeps_awaitAll {Q : Except Failure Unit → Unit → Course → Prop} {l : List Awaitable}
    (h : ∀ awaitable ∈ l, awaitable.Plain c) (hQ : ∀ r, Q r () c) : Keeps Q (awaitAll l) c := by
  induction l with
  | nil => exact hQ (.ok ())
  | cons awaitable rest ih =>
    rw [awaitAll, Keeps, Proc.keeps_bind]
    apply keeps_await (h awaitable (List.mem_cons_self ..))
    intro r
    cases r with
    | ok a => exact ih (fun b hb => h b (List.mem_cons_of_mem _ hb))
    | error e => exact hQ (.error e)

theorem keeps_tryAll {Q : Except Failure Unit → Unit → Course → Prop} {l : List Awaitable}
    (h : ∀ awaitable ∈ l, awaitable.Plain c) (hQ : Q (.ok ()) () c) : Keeps Q (tryAll l) c := by
  induction l with
  | nil => exact hQ
  | cons awaitable rest ih =>
    rw [tryAll, Keeps, Proc.keeps_bind, Proc.keeps_attempt]
    apply keeps_await (h awaitable (List.mem_cons_self ..))
    intro r
    exact ih (fun b hb => h b (List.mem_cons_of_mem _ hb))

/-- Calls the rules do not mention. -/
def Awaitable.Free : Awaitable → Prop
  | .upsertWorker _ _ | .componentStart _ | .finished _ => False
  | _ => True

theorem Awaitable.Free.plain {awaitable : Awaitable} (h : awaitable.Free) (c : Course) : awaitable.Plain c := by
  cases awaitable with
  | upsertWorker | componentStart | finished => exact h.elim
  | _ => exact ⟨trivial, fun _ _ hd => hd⟩

theorem keeps_free {Q : Except Failure Unit → Unit → Course → Prop} {awaitable : Awaitable} (h : awaitable.Free)
    (hQ : ∀ r, Q r () c) : Keeps Q (await awaitable) c := keeps_await (h.plain c) hQ

theorem plain_map {α : Type} (f : α → Awaitable) (h : ∀ a, (f a).Free) (l : List α) (c : Course) :
    ∀ awaitable ∈ l.map f, awaitable.Plain c := by
  intro awaitable hmem
  obtain ⟨a, -, rfl⟩ := List.mem_map.mp hmem
  exact (h a).plain c

theorem plain_of {awaitable : Awaitable} (hp : c.Permits (.await awaitable))
    (hf : ∀ r d, c.Follows (.await awaitable) r d → d = c) : awaitable.Plain c := ⟨hp, hf⟩

/-! ## The parts of the text -/

theorem keeps_upsert {Q : Except Failure Unit → Unit → Course → Prop} (h : c.releasing = false) (hQ : ∀ r, Q r () c) :
    Keeps Q upsert c := by
  apply Proc.keeps_step (by exact h)
  rintro ⟨now, status⟩ d rfl
  exact keeps_await (plain_of h (fun _ _ hd => hd)) hQ

theorem keeps_connect {Q : Except Failure Unit → Unit → Course → Prop} (services : List String)
    (hok : Q (.ok ()) () { c with servicesReady := true }) (herror : ∀ e, Q (.error e) () { c with servicesReady := false }) :
    Keeps Q (connect services) c := by
  apply Proc.keeps_step (by trivial)
  rintro - d rfl
  rw [Proc.keeps_bind]
  apply keeps_awaitAll
  · exact plain_map Awaitable.serviceStart (fun _ => trivial) _ _
  intro r
  cases r with
  | error e => exact herror e
  | ok a =>
    refine ⟨trivial, ?_⟩
    rintro - d rfl
    exact hok

theorem keeps_disconnect {Q : Except Failure Unit → Unit → Course → Prop} (services : List String)
    (hQ : ∀ r, Q r () { c with servicesReady := false }) : Keeps Q (disconnect services) c := by
  rw [disconnect, Keeps, Proc.keeps_bind, Proc.keeps_attempt]
  apply keeps_awaitAll
  · exact plain_map Awaitable.serviceStop (fun _ => trivial) _ _
  intro r
  apply Proc.keeps_step (by trivial)
  rintro - d rfl
  rw [Proc.keeps_value]
  exact hQ r

/-- `Worker.on_start` runs before the back queue is started. -/
theorem keeps_workerOnStart {Q : Except Failure Unit → Unit → Course → Prop} (hreleasing : c.releasing = false)
    (hbegin : c.opened = false ∧ c.stopping = false ∧ c.coordinating = false) (hQ : ∀ r, Q r () c) :
    Keeps Q workerOnStart c := by
  rw [workerOnStart, Keeps, Proc.keeps_bind]
  apply keeps_awaitAll
  · exact plain_map Awaitable.ensureBucketRecord (fun _ => trivial) _ _
  intro r
  cases r with
  | error e => exact hQ (.error e)
  | ok a =>
    rw [Proc.after_ok, Proc.keeps_bind]
    apply keeps_upsert hreleasing
    intro r
    cases r with
    | error e => exact hQ (.error e)
    | ok a =>
      apply Proc.keeps_step (by exact hbegin)
      rintro - d rfl
      apply Proc.keeps_step (by rfl)
      rintro r d rfl
      rw [Proc.keeps_value]
      have hback : { { c with coordinating := true } with coordinating := false } = c := by
        rw [← hbegin.2.2]
      rw [hback]
      exact hQ r

theorem keeps_workerOnStop {Q : Except Failure Unit → Unit → Course → Prop}
    (hbegin : c.Permits (.begin .shutdown)) (hQ : ∀ r, Q r () { c with releasing := true, released := true }) :
    Keeps Q workerOnStop c := by
  apply Proc.keeps_step hbegin
  rintro - d rfl
  apply Proc.keeps_step (by rfl)
  rintro r d rfl
  rw [Proc.keeps_value]
  exact hQ r

/-- The drain is over when `wait_for_drain` has returned. -/
theorem keeps_drain {Q : Except Failure Bool → Unit → Course → Prop}
    (h : c.opened = true ∧ c.stopping = true ∧ c.releasing = false)
    (hQ : ∀ r, Q (.ok r) () { c with drained := r, timedOut := !r }) : Keeps Q drain c := by
  apply Proc.keeps_step (by trivial)
  rintro - d rfl
  rw [Proc.keeps_bind, Proc.keeps_attempt]
  apply keeps_upsert h.2.2
  intro r
  apply Proc.keeps_step (by exact h)
  rintro task d rfl
  refine ⟨h.2.2, ?_⟩
  rintro r d rfl
  exact hQ r

theorem keeps_cancelHeartbeat {Q : Except Failure Unit → Unit → Course → Prop} (hQ : Q (.ok ()) () { c with beating := false }) :
    Keeps Q cancelHeartbeat c := by
  apply Proc.keeps_step (by trivial)
  rintro - d ⟨rfl, hd⟩
  obtain rfl := hd.symm
  cases hbeating : c.beating with
  | true =>
    refine ⟨trivial, ?_⟩
    rintro - d rfl
    exact hQ
  | false =>
    have hsame : { c with beating := false } = c := by rw [← hbeating]
    rw [hsame] at hQ
    exact hQ

theorem keeps_cancelCoordination {Q : Except Failure Unit → Unit → Course → Prop}
    (h : c.stopping = true ∧ c.coordinating = false ∧ c.beating = false) (hQ : Q (.ok ()) () { c with joined := true }) :
    Keeps Q cancelCoordination c := by
  apply Proc.keeps_step (by exact h)
  rintro r d rfl
  cases r with
  | true =>
    refine ⟨h, ?_⟩
    rintro - d rfl
    exact hQ
  | false => exact hQ

/-! ## `shutdown` -/

/-- Before `shutdown`. -/
structure Course.Running (c : Course) : Prop where
  stopping : c.stopping = false
  coordinating : c.coordinating = false
  joined : c.joined = false
  timedOut : c.timedOut = false
  releasing : c.releasing = false
  backQueue : c.backQueue = c.opened
  servicesReady : c.opened = true → c.servicesReady = true

/-- In `shutdown`, once the tasks of the application are over. -/
structure Course.Stopping (c : Course) : Prop where
  stopping : c.stopping = true
  joined : c.joined = true
  coordinating : c.coordinating = false
  releasing : c.releasing = false
  backQueue : c.backQueue = true → c.opened = true
  settled : c.opened = true → c.drained = true ∨ c.timedOut = true

/-- What is left of the application when `start` returned. -/
structure Course.Closed (c : Course) : Prop where
  stopping : c.stopping = true
  joined : c.joined = true
  coordinating : c.coordinating = false
  servicesReady : c.servicesReady = false
  released : c.releasing = true → c.released = true
  settled : c.opened = true → c.drained = true ∨ c.timedOut = true

/-- The outcome of `shutdown` and `start`. -/
def Ending (r : Except Failure Unit) (_ : Unit) (c : Course) : Prop := r = .ok () → c.Closed

/-- The services are disconnected last, unless the release failed. -/
theorem keeps_close (setup : Setup) (h : Course.Closed { c with servicesReady := false }) :
    Keeps Ending (do
      if ← perform .servicesReady then
        disconnect setup.services) c := by
  apply Proc.keeps_step (by trivial)
  rintro - d ⟨rfl, hd⟩
  obtain rfl := hd.symm
  cases hready : c.servicesReady with
  | true =>
    apply keeps_disconnect
    exact fun _ _ => h
  | false => exact fun _ => ⟨h.stopping, h.joined, h.coordinating, hready, h.released, h.settled⟩

theorem keeps_release (setup : Setup) (releaseWorker : Bool) (h : c.Stopping)
    (hrelease : releaseWorker = true → c.timedOut = false ∧ (c.drained = true ∨ c.opened = false)) :
    Keeps Ending (do
      if releaseWorker then
        workerOnStop
      if ← perform .servicesReady then
        disconnect setup.services) c := by
  cases releaseWorker with
  | false =>
    have hnone : c.releasing ≠ true := by simp [h.releasing]
    exact keeps_close setup ⟨h.stopping, h.joined, h.coordinating, rfl, fun hr => absurd hr hnone, h.settled⟩
  | true =>
    rw [if_pos rfl, Keeps, Proc.keeps_bind]
    apply keeps_workerOnStop ⟨h.releasing, h.joined, hrelease rfl⟩
    intro r
    cases r with
    | error e => exact nofun
    | ok a => exact keeps_close setup ⟨h.stopping, h.joined, h.coordinating, rfl, fun _ => rfl, h.settled⟩

theorem keeps_stopAll (setup : Setup) (releaseWorker : Bool) (h : c.Stopping)
    (hrelease : releaseWorker = true → c.timedOut = false ∧ (c.drained = true ∨ c.opened = false)) :
    Keeps Ending (stopAll setup releaseWorker) c := by
  rw [stopAll, Keeps, Proc.keeps_bind]
  apply keeps_tryAll (plain_map Awaitable.extensionStop (fun _ => trivial) _ _)
  rw [Proc.after_ok, Proc.keeps_bind]
  apply keeps_tryAll (plain_map Awaitable.componentStop (fun _ => trivial) _ _)
  rw [Proc.after_ok, Proc.keeps_bind, Proc.keeps_attempt]
  apply keeps_free (by trivial)
  intro r
  apply Proc.keeps_step (by trivial)
  rintro - d ⟨rfl, hd⟩
  obtain rfl := hd.symm
  cases hqueue : c.backQueue with
  | false => exact keeps_release setup releaseWorker h hrelease
  | true =>
    apply Proc.keeps_step (by exact h.backQueue hqueue)
    rintro - d rfl
    rw [Bool.or_false]
    exact keeps_release setup releaseWorker ⟨h.stopping, h.joined, h.coordinating, h.releasing, nofun, h.settled⟩ hrelease

/-- The tasks of the application end before anything is stopped. -/
theorem keeps_cancelAll (setup : Setup) (releaseWorker : Bool)
    (hstopping : c.stopping = true) (hcoordinating : c.coordinating = false) (hreleasing : c.releasing = false)
    (hqueue : c.backQueue = true → c.opened = true) (hsettled : c.opened = true → c.drained = true ∨ c.timedOut = true)
    (hrelease : releaseWorker = true → c.timedOut = false ∧ (c.drained = true ∨ c.opened = false)) :
    Keeps Ending (do
      cancelHeartbeat
      cancelCoordination
      stopAll setup releaseWorker) c := by
  rw [Keeps, Proc.keeps_bind]
  apply keeps_cancelHeartbeat
  rw [Proc.after_ok, Proc.keeps_bind]
  apply keeps_cancelCoordination (by exact ⟨hstopping, hcoordinating, rfl⟩)
  exact keeps_stopAll setup releaseWorker ⟨hstopping, rfl, hcoordinating, hreleasing, hqueue, hsettled⟩ hrelease

/-- Draining is for an application whose back queue was started. -/
theorem keeps_releaseWorker {Q : Except Failure Bool → Unit → Course → Prop} (hstopping : c.stopping = true)
    (hreleasing : c.releasing = false) (hqueue : c.backQueue = c.opened) (hready : c.opened = true → c.servicesReady = true)
    (hdrain : c.opened = true → ∀ r, Q (.ok r) () { c with drained := r, timedOut := !r })
    (hclosed : c.opened = false → ∀ r, Q (.ok r) () c) : Keeps Q releaseWorker c := by
  apply Proc.keeps_step (by trivial)
  rintro ready d ⟨rfl, hd⟩
  obtain rfl := hd.symm
  apply Proc.keeps_step (by trivial)
  rintro queue d ⟨rfl, hd⟩
  obtain rfl := hd.symm
  rw [hqueue]
  cases hopened : c.opened with
  | true =>
    rw [hready hopened]
    exact keeps_drain ⟨hopened, hstopping, hreleasing⟩ (hdrain hopened)
  | false =>
    rw [Bool.and_false]
    exact hclosed hopened _

theorem keeps_shutdown (setup : Setup) (h : c.Running) : Keeps Ending (shutdown setup) c := by
  apply Proc.keeps_step (by trivial)
  rintro - d ⟨rfl, hd⟩
  obtain rfl := hd.symm
  rw [h.stopping]
  apply Proc.keeps_step (by exact h.coordinating)
  rintro - d rfl
  rw [Proc.keeps_bind]
  apply keeps_releaseWorker (by rfl) (by exact h.releasing) (by exact h.backQueue) (by exact h.servicesReady)
  · intro hopened r
    rw [Proc.after_ok]
    apply keeps_cancelAll setup r (by rfl) (by exact h.coordinating) (by exact h.releasing) (by exact fun _ => hopened)
    · intro _
      cases r with
      | false => exact .inr rfl
      | true => exact .inl rfl
    · rintro rfl
      exact ⟨rfl, .inl rfl⟩
  · intro hopened r
    have hnone : c.opened ≠ true := by simpa using hopened
    rw [Proc.after_ok]
    apply keeps_cancelAll setup r (by rfl) (by exact h.coordinating) (by exact h.releasing)
    · exact fun hq => absurd (h.backQueue ▸ hq) hnone
    · exact fun ho => absurd ho hnone
    · exact fun _ => ⟨h.timedOut, .inr hopened⟩

/-! ## `start` -/

theorem keeps_seed {Q : Except Failure Unit → Unit → Course → Prop} (addresses : List String) (hQ : ∀ r, Q r () c) :
    Keeps Q (seed addresses) c := by
  rw [seed, Keeps, Proc.keeps_bind, Proc.keeps_attempt, Proc.keeps_bind]
  apply keeps_free (by trivial)
  intro r
  cases r with
  | error e =>
    cases e with
    | lockAcquisition => exact hQ (.ok ())
    | other => exact hQ (.error .other)
  | ok a =>
    rw [Proc.after_ok, Proc.keeps_bind]
    apply keeps_tryAll (plain_map Awaitable.seedUrl (fun _ => trivial) _ _)
    rw [Proc.after_ok]
    apply keeps_free (by trivial)
    intro r
    cases r with
    | error e =>
      cases e with
      | lockAcquisition => exact hQ (.ok ())
      | other => exact hQ (.error .other)
    | ok a => exact hQ (.ok ())

theorem keeps_serve (setup : Setup) (h : c.Running) (hopened : c.opened = true) : Keeps Ending (serve setup) c := by
  rw [serve, Keeps, Proc.keeps_bind]
  apply keeps_awaitAll
  · intro awaitable hmem
    obtain ⟨component, -, rfl⟩ := List.mem_map.mp hmem
    exact plain_of hopened (fun _ _ hd => hd)
  intro r
  cases r with
  | error e => exact nofun
  | ok a =>
    rw [Proc.after_ok, Proc.keeps_bind]
    apply keeps_seed
    intro r
    cases r with
    | error e => exact nofun
    | ok a =>
      rw [Proc.after_ok, Proc.keeps_bind, Proc.keeps_attempt]
      apply keeps_free (by trivial)
      exact fun _ => keeps_shutdown setup h

theorem keeps_join (setup : Setup) (h : c.Running) (hready : c.servicesReady = true) (hopened : c.opened = false) :
    Keeps Ending (join setup) c := by
  apply Proc.keeps_step (by exact ⟨h.stopping, h.joined⟩)
  rintro - d rfl
  rw [Proc.keeps_bind]
  apply keeps_awaitAll
  · exact plain_map Awaitable.extensionStart (fun _ => trivial) _ _
  intro r
  cases r with
  | error e => exact nofun
  | ok a =>
    rw [Proc.after_ok, Proc.keeps_bind, Proc.keeps_attempt]
    apply keeps_workerOnStart (by exact h.releasing) (by exact ⟨hopened, h.stopping, h.coordinating⟩)
    intro r
    cases r with
    | error e =>
      exact keeps_shutdown setup ⟨h.stopping, h.coordinating, h.joined, h.timedOut, h.releasing, h.backQueue, h.servicesReady⟩
    | ok a =>
      apply Proc.keeps_step (by exact ⟨h.stopping, h.coordinating⟩)
      rintro - d rfl
      apply keeps_serve setup
      · exact ⟨h.stopping, h.coordinating, h.joined, h.timedOut, h.releasing, (Bool.or_true _).symm, fun _ => hready⟩
      · exact Bool.or_true _

/-- `start` keeps to the rules from the beginning to its end. -/
theorem keeps_start (setup : Setup) : Keeps Ending (start setup) {} := by
  rw [start, Keeps, Proc.keeps_bind, Proc.keeps_attempt]
  apply keeps_free (by trivial)
  intro r
  cases r with
  | error e => exact keeps_shutdown setup ⟨rfl, rfl, rfl, rfl, rfl, rfl, nofun⟩
  | ok a =>
    rw [Proc.after_ok, Proc.keeps_bind, Proc.keeps_attempt]
    apply keeps_connect
    · exact keeps_join setup ⟨rfl, rfl, rfl, rfl, rfl, rfl, nofun⟩ rfl rfl
    · exact fun e => keeps_shutdown setup ⟨rfl, rfl, rfl, rfl, rfl, rfl, nofun⟩

end Linksurf.Application
