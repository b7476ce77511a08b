import Linksurf.Components
import Linksurf.Execution
import Linksurf.Wire
import Mathlib.Data.Finset.Basic

/-!
# Stopping a looper

The handlers of `LooperComponent.loop` between their awaited operations, and
`on_stop`, which waits for the tasks that are in flight when it is called. A
handler that is still pulling is not among them.
-/
namespace Linksurf.Pipeline

open Execution

/-- What a handler awaits: its first turn, a payload, the Start event, the
callback, the Finish or Error event, the saving of the execution. -/
inductive Position (rt : Runtime) where
  | created
  | pulling
  | starting (payload : Payload rt)
  | calling (payload : Payload rt)
  | finishing (payload : Payload rt) (error : Option Error)
  | saving (payload : Payload rt) (error : Option Error)
  | exited

/-- The answers; a pull that raises is logged, and a callback leaves its payload
and an outcome. -/
inductive HandlerAction (rt : Runtime) where
  | begin
  | pulled (payload : Payload rt)
  | pullFailed
  | started
  | called (payload : Payload rt) (outcome : Except Raised (Option Error))
  | finished
  | saved

namespace Position

variable {rt : Runtime}

/-- `while self._looping`. -/
def head (looping : Bool) : Position rt := if looping then .pulling else .exited

/-- How a handler goes on. -/
def next (looping : Bool) : HandlerAction rt → Position rt → Option (Position rt)
  | .begin, .created => some (head looping)
  | .pulled payload, .pulling => some (.starting (Component.countRetry payload))
  | .pullFailed, .pulling => some (head looping)
  | .started, .starting payload => some (.calling payload)
  | .called payload outcome, .calling _ => some (.finishing payload (Component.errorOf outcome))
  | .finished, .finishing payload error => some (.saving payload error)
  | .saved, .saving _ _ => some (head looping)
  | _, _ => none

def isExited : Position rt → Bool
  | .exited => true
  | _ => false

/-- The callback is running. -/
def isCalling : Position rt → Bool
  | .calling _ => true
  | _ => false

/-- With a payload. -/
def isBusy : Position rt → Bool
  | .created | .pulling | .exited => false
  | _ => true

end Position

/-- How far `on_stop` has come: it waits for tasks, then stops the executors. -/
inductive Stopping where
  | notCalled
  | draining (tasks : Finset Nat)
  | closing
  | returned
  deriving DecidableEq

/-- `_looping`, `_loop_in_flight`, the handlers and `on_stop`. -/
structure Looper (rt : Runtime) where
  looping : Bool
  inFlight : Finset Nat
  handlers : List (Position rt)
  stopping : Stopping

inductive LoopAction (rt : Runtime) where
  | handler (i : Nat) (action : HandlerAction rt)
  | stop
  | drained
  | closed

namespace Looper

variable {rt : Runtime}

/-- After `loop` with a concurrency. -/
def started (concurrency : Nat) : Looper rt := ⟨true, ∅, List.replicate concurrency .created, .notCalled⟩

/-- A task is in flight from the pull to the end of its saving. -/
def track (inFlight : Finset Nat) (i : Nat) : HandlerAction rt → Finset Nat
  | .pulled _ => insert i inFlight
  | .saved => inFlight.erase i
  | _ => inFlight

def step (s : Looper rt) : LoopAction rt → Option (Looper rt)
  | .handler i action => do
    let position ← s.handlers[i]?
    let position' ← position.next s.looping action
    return { s with inFlight := track s.inFlight i action, handlers := s.handlers.set i position' }
  | .stop =>
    match s.stopping with
    | .notCalled =>
      if s.inFlight.Nonempty then some { s with looping := false, stopping := .draining s.inFlight }
      else some { s with looping := false, stopping := .closing }
    | _ => none
  | .drained =>
    match s.stopping with
    | .draining tasks =>
      if ∀ i ∈ tasks, (s.handlers[i]?).any Position.isExited = true then
        some { s with inFlight := ∅, stopping := .closing }
      else none
    | _ => none
  | .closed =>
    match s.stopping with
    | .closing => some { s with stopping := .returned }
    | _ => none

/-- A pull returns a payload only before `on_stop` is called. -/
def Timely (s : Looper rt) (a : LoopAction rt) : Prop :=
  ∀ i payload, a = .handler i (.pulled payload) → s.stopping = .notCalled

/-- Where a handler may have a payload: in flight, or waited for. -/
def Allows (s : Looper rt) (i : Nat) : Prop :=
  match s.stopping with
  | .notCalled => i ∈ s.inFlight
  | .draining tasks => i ∈ tasks
  | .closing => False
  | .returned => False

def Accounted (s : Looper rt) : Prop :=
  ∀ i position, s.handlers[i]? = some position → position.isBusy = true → s.Allows i

theorem accounted_started (concurrency : Nat) : (started concurrency : Looper rt).Accounted := by
  intro i position hposition hbusy
  obtain rfl : position = .created := by
    have hmem := List.mem_of_getElem? hposition
    exact List.eq_of_mem_replicate hmem
  cases hbusy

theorem isBusy_head (looping : Bool) : (Position.head looping : Position rt).isBusy = false := by
  cases looping <;> rfl

/-- A handler has a payload after a step if it had one before or was just given
one. -/
theorem next_busy {looping : Bool} {action : HandlerAction rt} {position position' : Position rt}
    (h : position.next looping action = some position') (hbusy : position'.isBusy = true) :
    (∃ payload, action = .pulled payload) ∨ position.isBusy = true ∧ ∀ inFlight i, track inFlight i action = inFlight := by
  cases action with
  | pulled payload => exact .inl ⟨payload, rfl⟩
  | begin | pullFailed | saved =>
    cases position <;> cases h
    rw [isBusy_head] at hbusy
    cases hbusy
  | started | called _ _ | finished =>
    cases position <;> cases h
    exact .inr ⟨rfl, fun _ _ => rfl⟩

theorem mem_track {inFlight : Finset Nat} {i j : Nat} {action : HandlerAction rt} (hij : j ≠ i) (h : j ∈ inFlight) :
    j ∈ track inFlight i action := by
  cases action with
  | pulled payload => exact Finset.mem_insert_of_mem h
  | saved => exact Finset.mem_erase.mpr ⟨hij, h⟩
  | begin | pullFailed | started | called _ _ | finished => exact h

theorem accounted_handler {s s' : Looper rt} {i : Nat} {action : HandlerAction rt} (h : s.Accounted)
    (htimely : s.Timely (.handler i action)) (hstep : s.step (.handler i action) = some s') : s'.Accounted := by
  obtain ⟨position, hposition, hstep⟩ := Option.bind_eq_some_iff.mp hstep
  obtain ⟨position', hnext, hstep⟩ := Option.bind_eq_some_iff.mp hstep
  obtain rfl := Option.some.inj hstep
  intro j other hother hbusy
  by_cases hij : j = i
  · subst hij
    obtain rfl : position' = other := by
      obtain ⟨hlt, -⟩ := List.getElem?_eq_some_iff.mp hposition
      simpa [hlt] using hother
    obtain ⟨payload, rfl⟩ | ⟨hbefore, htrack⟩ := next_busy hnext hbusy
    · have hcalled : s.stopping = .notCalled := htimely j payload rfl
      simp [Allows, hcalled, track]
    · have hallowed := h j position hposition hbefore
      simpa [Allows, htrack] using hallowed
  · have hsame : s.handlers[j]? = some other := by
      rwa [List.getElem?_set_ne (Ne.symm hij)] at hother
    have hallowed := h j other hsame hbusy
    unfold Allows at hallowed ⊢
    cases hstopping : s.stopping with
    | notCalled =>
      rw [hstopping] at hallowed
      exact mem_track hij hallowed
    | draining _ | closing | returned =>
      rw [hstopping] at hallowed
      exact hallowed

theorem accounted_step {s s' : Looper rt} {a : LoopAction rt} (h : s.Accounted) (htimely : s.Timely a)
    (hstep : s.step a = some s') : s'.Accounted := by
  cases a with
  | handler i action => exact accounted_handler h htimely hstep
  | stop =>
    simp only [step] at hstep
    split at hstep
    · rename_i hstopping
      split at hstep
      · obtain rfl := Option.some.inj hstep
        intro i position hposition hbusy
        simpa [Allows, hstopping] using h i position hposition hbusy
      · rename_i hnone
        obtain rfl := Option.some.inj hstep
        intro i position hposition hbusy
        have hmem : i ∈ s.inFlight := by simpa [Allows, hstopping] using h i position hposition hbusy
        exact (hnone ⟨i, hmem⟩).elim
    · cases hstep
  | drained =>
    simp only [step] at hstep
    split at hstep
    · rename_i tasks hstopping
      split at hstep
      · rename_i hexited
        obtain rfl := Option.some.inj hstep
        intro i position hposition hbusy
        have hmem : i ∈ tasks := by simpa [Allows, hstopping] using h i position hposition hbusy
        have hgone := hexited i hmem
        rw [show s.handlers[i]? = some position from hposition] at hgone
        cases position <;> cases hgone
        cases hbusy
      · cases hstep
    · cases hstep
  | closed =>
    simp only [step] at hstep
    split at hstep
    · rename_i hstopping
      obtain rfl := Option.some.inj hstep
      intro i position hposition hbusy
      simpa [Allows, hstopping] using h i position hposition hbusy
    · cases hstep

/-- `on_stop` stays returned. -/
theorem returned_step {s s' : Looper rt} {a : LoopAction rt} (h : s.stopping = .returned) (hstep : s.step a = some s') :
    s'.stopping = .returned := by
  cases a with
  | handler i action =>
    obtain ⟨position, -, hstep⟩ := Option.bind_eq_some_iff.mp hstep
    obtain ⟨position', -, hstep⟩ := Option.bind_eq_some_iff.mp hstep
    obtain rfl := Option.some.inj hstep
    exact h
  | stop => simp [step, h] at hstep
  | drained => simp [step, h] at hstep
  | closed => simp [step, h] at hstep

/-- After `on_stop` no handler has a payload. -/
theorem idle_of_returned {s : Looper rt} (h : s.Accounted) (hreturned : s.stopping = .returned) :
    ∀ position ∈ s.handlers, position.isBusy = false := by
  intro position hmem
  obtain ⟨i, hposition⟩ := List.getElem?_of_mem hmem
  cases hbusy : position.isBusy with
  | false => rfl
  | true =>
    have hallowed := h i position hposition hbusy
    rw [Allows, hreturned] at hallowed
    exact hallowed.elim

/-- Once `on_stop` has returned, no callback is running and none is started in
whatever follows, if no pull gives a payload after `on_stop` was called. -/
theorem on_stop_final {concurrency : Nat} {s t : Looper rt} (hrun : Reaches step Timely (started concurrency) s)
    (hreturned : s.stopping = .returned) (hlater : Reaches step Timely s t) :
    (∀ position ∈ t.handlers, position.isCalling = false) ∧ ∀ i, t.step (.handler i .started) = none := by
  have haccounted : t.Accounted := by
    apply (hrun.trans hlater).invariant Accounted (accounted_started concurrency)
    exact fun _ _ _ hi hp hs => accounted_step hi hp hs
  have hstopped : t.stopping = .returned := by
    apply hlater.invariant (fun s => s.stopping = .returned) hreturned
    exact fun _ _ _ hi _ hs => returned_step hi hs
  have hidle := idle_of_returned haccounted hstopped
  constructor
  · intro position hmem
    have hbusy := hidle position hmem
    cases position <;> first | rfl | cases hbusy
  · intro i
    simp only [step, Option.bind_eq_bind, Option.bind_eq_none_iff]
    intro position hposition position' hnext
    have hbusy := hidle position (List.mem_of_getElem? hposition)
    cases position <;> first | (cases hbusy; done) | cases hnext

/-- The test for `Timely`. -/
def timely (s : Looper rt) : LoopAction rt → Bool
  | .handler _ (.pulled _) => s.stopping = .notCalled
  | _ => true

theorem timely_of_test {s : Looper rt} {a : LoopAction rt} (h : timely s a = true) : s.Timely a := by
  rintro i payload rfl
  exact of_decide_eq_true h

/-- The stop comes while the callback is running, and waits for it. -/
theorem on_stop_final_draining : ∃ s : Looper asciiRuntime, Reaches step Timely (started 1) s ∧ s.stopping = .returned ∧
    (∀ position ∈ s.handlers, position.isCalling = false) ∧ ∀ i, s.step (.handler i .started) = none := by
  obtain ⟨s, hrun, hreturned⟩ := exists_reaches step (P := Timely) (started 1 : Looper asciiRuntime) timely
    (fun _ _ h => timely_of_test h)
    [ .handler 0 .begin, .handler 0 (.pulled sitePage), .handler 0 .started, .stop,
      .handler 0 (.called sitePage (.ok none)), .handler 0 .finished, .handler 0 .saved, .drained, .closed ]
    (fun s => s.stopping = .returned) (by decide +kernel)
  have hreturned : s.stopping = .returned := of_decide_eq_true hreturned
  exact ⟨s, hrun, hreturned, on_stop_final hrun hreturned .refl⟩

/-- A pull that ends after `on_stop` has returned starts a callback. -/
theorem on_stop_not_final :
    (run step (started 1 : Looper asciiRuntime)
      [.handler 0 .begin, .stop, .closed, .handler 0 (.pulled sitePage), .handler 0 .started]).map (fun s =>
        (s.stopping, s.handlers.map Position.isCalling)) = some (.returned, [true]) := by
  decide +kernel

end Looper

end Linksurf.Pipeline
