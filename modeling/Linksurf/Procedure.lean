import Linksurf.Coroutine

/-!
# Coroutines with a variable and exceptions

Programs that read and assign one variable between their operations and may
raise. What was assigned before a raise stays assigned. Properties of such a
program are read off its text from the end to the start.
-/
namespace Coroutine

universe u

/-- From the variable to the outcome and what the variable is then. -/
def Proc (Op : Type) (Res : Op → Type) (E S α : Type) : Type := S → Coro Op Res (Except E α × S)

variable {Op : Type} {Res : Op → Type} {E S α β : Type}

namespace Proc

/-- Go on after a result; an exception goes past. -/
def proceed (f : α → Proc Op Res E S β) : Except E α × S → Coro Op Res (Except E β × S)
  | (.ok a, s) => f a s
  | (.error e, s) => .ret (.error e, s)

instance : Monad (Proc Op Res E S) where
  pure a := fun s => .ret (.ok a, s)
  bind x f := fun s => x s >>= Proc.proceed f

/-- Await an operation. -/
def call (op : Op) : Proc Op Res E S (Res op) := fun s => .await op (fun r => .ret (.ok r, s))

/-- The variable. -/
def read : Proc Op Res E S S := fun s => .ret (.ok s, s)

/-- Assign to the variable. -/
def assign (f : S → S) : Proc Op Res E S Unit := fun s => .ret (.ok (), f s)

def raise (e : E) : Proc Op Res E S α := fun s => .ret (.error e, s)

/-- The value of an answer, or its exception raised. -/
def value : Except E α → Proc Op Res E S α
  | .ok a => pure a
  | .error e => raise e

/-- `try`: the outcome as a value. -/
def attempt (x : Proc Op Res E S α) : Proc Op Res E S (Except E α) :=
  fun s => x s >>= fun r => .ret (.ok r.1, r.2)

/-! ## Properties of programs -/

variable {σ : Type u} (rules : Coro.Rules Op Res σ)

/-- The program keeps to the rules from a value of its variable and a state of
the conversation, and its outcome, variable and conversation meet `Q`. -/
def Keeps (Q : Except E α → S → σ → Prop) (x : Proc Op Res E S α) (s : S) (t : σ) : Prop :=
  Coro.Keeps rules (fun r u => Q r.1 r.2 u) (x s) t

/-- What is left to show after a part of a program. -/
def After (f : α → Proc Op Res E S β) (Q : Except E β → S → σ → Prop) : Except E α → S → σ → Prop
  | .ok a, s, t => Keeps rules Q (f a) s t
  | .error e, s, t => Q (.error e) s t

variable {rules} {Q : Except E α → S → σ → Prop} {Q' : Except E β → S → σ → Prop} {s : S} {t : σ}

@[simp] theorem after_ok {f : α → Proc Op Res E S β} {a : α} :
    After rules f Q' (.ok a) s t ↔ Keeps rules Q' (f a) s t := Iff.rfl

@[simp] theorem after_error {f : α → Proc Op Res E S β} {e : E} :
    After rules f Q' (.error e) s t ↔ Q' (.error e) s t := Iff.rfl

@[simp] theorem keeps_pure {a : α} : Keeps rules Q (pure a) s t ↔ Q (.ok a) s t := Iff.rfl

@[simp] theorem keeps_raise {e : E} : Keeps rules Q (raise e) s t ↔ Q (.error e) s t := Iff.rfl

@[simp] theorem keeps_read {Q : Except E S → S → σ → Prop} : Keeps rules Q read s t ↔ Q (.ok s) s t := Iff.rfl

@[simp] theorem keeps_assign {Q : Except E Unit → S → σ → Prop} {f : S → S} :
    Keeps rules Q (assign f) s t ↔ Q (.ok ()) (f s) t := Iff.rfl

@[simp] theorem keeps_value {r : Except E α} : Keeps rules Q (value r) s t ↔ Q r s t := by
  cases r <;> exact Iff.rfl

theorem keeps_call {op : Op} {Q : Except E (Res op) → S → σ → Prop} :
    Keeps rules Q (call op) s t ↔
      rules.permits t op ∧ ∀ r u, rules.follows t op r u → Q (.ok r) s u := Iff.rfl

@[simp] theorem keeps_bind {x : Proc Op Res E S α} {f : α → Proc Op Res E S β} :
    Keeps rules Q' (x >>= f) s t ↔ Keeps rules (After rules f Q') x s t := by
  have hstep (r : Except E α × S) (u : σ) :
      Coro.Keeps rules (fun r u => Q' r.1 r.2 u) (Proc.proceed f r) u ↔ After rules f Q' r.1 r.2 u := by
    obtain ⟨r, s'⟩ := r
    cases r with
    | ok a => exact Iff.rfl
    | error e => exact Iff.rfl
  change Coro.Keeps rules _ (x s >>= Proc.proceed f) t ↔ _
  rw [Coro.keeps_bind]
  constructor
  · exact fun h => Coro.keeps_mono h (fun r u hr => (hstep r u).mp hr)
  · exact fun h => Coro.keeps_mono h (fun r u hr => (hstep r u).mpr hr)

@[simp] theorem keeps_attempt {x : Proc Op Res E S α} {Q : Except E (Except E α) → S → σ → Prop} :
    Keeps rules Q (attempt x) s t ↔ Keeps rules (fun r s u => Q (.ok r) s u) x s t := by
  change Coro.Keeps rules _ (x s >>= _) t ↔ _
  rw [Coro.keeps_bind]
  exact Iff.rfl

/-- A program that asks for nothing. -/
theorem keeps_of_ret {x : Proc Op Res E S α} {r : Except E α} {s' : S} (h : x s = .ret (r, s')) (hQ : Q r s' t) :
    Keeps rules Q x s t := by
  unfold Keeps
  rw [h]
  exact hQ

/-- An operation and what follows its answer. -/
theorem keeps_step {op : Op} {f : Res op → Proc Op Res E S β} (hp : rules.permits t op)
    (hf : ∀ r u, rules.follows t op r u → Keeps rules Q' (f r) s u) : Keeps rules Q' (call op >>= f) s t := by
  rw [keeps_bind]
  exact ⟨hp, hf⟩

/-- An answer that changes nothing. -/
theorem keeps_ask {op : Op} {f : Res op → Proc Op Res E S β} (h : rules.Ignores t op)
    (hf : ∀ r, Keeps rules Q' (f r) s t) : Keeps rules Q' (call op >>= f) s t := by
  apply keeps_step h.1
  intro r u hfollows
  obtain rfl := h.2 r u hfollows
  exact hf r

/-- An answer that is noted. -/
theorem keeps_note {observe : σ → (op : Op) → Res op → σ} {op : Op} {f : Res op → Proc Op Res E S β}
    (hf : ∀ r, Keeps (Coro.observing observe) Q' (f r) s (observe t op r)) :
    Keeps (Coro.observing observe) Q' (call op >>= f) s t := by
  apply keeps_step (by trivial)
  rintro r u rfl
  exact hf r

theorem keeps_mono {Q Q' : Except E α → S → σ → Prop} {x : Proc Op Res E S α} (hx : Keeps rules Q x s t)
    (h : ∀ r s' u, Q r s' u → Q' r s' u) : Keeps rules Q' x s t :=
  Coro.keeps_mono hx (fun r u hr => h r.1 r.2 u hr)

theorem keeps_and {Q Q' : Except E α → S → σ → Prop} {x : Proc Op Res E S α} (h : Keeps rules Q x s t)
    (h' : Keeps rules Q' x s t) : Keeps rules (fun r s u => Q r s u ∧ Q' r s u) x s t := Coro.keeps_and h h'

end Proc

end Coroutine
