import Mathlib.Tactic.Common

/-!
# Coroutines

A coroutine is finished or awaits the answer to one operation. Everything it
does between two answers is part of its text, so an interleaving of several
coroutines is an order of their operations. The text is a value: it can be run
alone against a handler, stepped inside a pool, or inspected for every
operation it could ever issue.
-/
namespace Coroutine

universe u

/-- A computation that is finished, or that awaits the answer to an operation. -/
inductive Coro (Op : Type) (Res : Op → Type) (α : Type) where
  | ret : α → Coro Op Res α
  | await : (op : Op) → (Res op → Coro Op Res α) → Coro Op Res α

variable {Op : Type} {Res : Op → Type} {α β γ : Type}

namespace Coro

def bind : Coro Op Res α → (α → Coro Op Res β) → Coro Op Res β
  | .ret a, f => f a
  | .await op k, f => .await op (fun r => bind (k r) f)

instance : Monad (Coro Op Res) where
  pure := .ret
  bind := bind

/-- Issue one operation and return its answer. -/
def perform (op : Op) : Coro Op Res (Res op) := .await op .ret

@[simp] theorem pure_eq (a : α) : (pure a : Coro Op Res α) = .ret a := rfl
@[simp] theorem ret_bind (a : α) (f : α → Coro Op Res β) : (Coro.ret a : Coro Op Res α) >>= f = f a := rfl
@[simp] theorem await_bind (op : Op) (k : Res op → Coro Op Res α) (f : α → Coro Op Res β) :
    Coro.await op k >>= f = .await op (fun r => k r >>= f) := rfl
@[simp] theorem perform_bind (op : Op) (f : Res op → Coro Op Res β) :
    perform op >>= f = .await op f := rfl

/-! ## Running alone -/

section Run

variable {S : Type u} (exec : (op : Op) → S → Res op × S)

/-- Run to the end against a handler that answers every operation. -/
def run : Coro Op Res α → S → α × S
  | .ret a, s => (a, s)
  | .await op k, s => run (k (exec op s).1) (exec op s).2

@[simp] theorem run_ret (a : α) (s : S) : run exec (.ret a : Coro Op Res α) s = (a, s) := rfl
@[simp] theorem run_await (op : Op) (k : Res op → Coro Op Res α) (s : S) :
    run exec (.await op k) s = run exec (k (exec op s).1) (exec op s).2 := rfl

theorem run_bind (c : Coro Op Res α) (f : α → Coro Op Res β) (s : S) :
    run exec (c >>= f) s = run exec (f (run exec c s).1) (run exec c s).2 := by
  induction c generalizing s with
  | ret a => rfl
  | await op k ih => exact ih _ _

end Run

/-! ## Every operation a coroutine can issue -/

section Issues

variable (A : (op : Op) → Res op → Prop) (P : Op → Prop)

/-- As long as every answer meets `A`, each operation issued meets `P` and the
result meets `Q`. -/
def Issues (Q : α → Prop) : Coro Op Res α → Prop
  | .ret a => Q a
  | .await op k => P op ∧ ∀ r, A op r → Issues Q (k r)

variable {A P}

theorem issues_bind {Q : α → Prop} {Q' : β → Prop} {c : Coro Op Res α} {f : α → Coro Op Res β}
    (hc : c.Issues A P Q) (hf : ∀ a, Q a → (f a).Issues A P Q') : (c >>= f).Issues A P Q' := by
  induction c with
  | ret a => exact hf a hc
  | await op k ih => exact ⟨hc.1, fun r hr => ih r (hc.2 r hr)⟩

theorem issues_mono {Q Q' : α → Prop} {c : Coro Op Res α} (hc : c.Issues A P Q)
    (h : ∀ a, Q a → Q' a) : c.Issues A P Q' := by
  induction c with
  | ret a => exact h a hc
  | await op k ih => exact ⟨hc.1, fun r hr => ih r (hc.2 r hr)⟩

end Issues

/-! ## Conversations -/

section Keeps

variable {σ : Type u}

/-- Rules of a conversation in its own state: which operations may be issued,
and what an answer makes of the state. -/
structure Rules (Op : Type) (Res : Op → Type) (σ : Type u) where
  permits : σ → Op → Prop
  follows : σ → (op : Op) → Res op → σ → Prop

variable (rules : Rules Op Res σ)

/-- Every operation issued is permitted whatever the answers were, and the
result meets `Q`. -/
def Keeps (Q : α → σ → Prop) : Coro Op Res α → σ → Prop
  | .ret a, t => Q a t
  | .await op k, t => rules.permits t op ∧ ∀ r u, rules.follows t op r u → Keeps Q (k r) u

variable {rules}

@[simp] theorem keeps_ret {Q : α → σ → Prop} {a : α} {t : σ} : Keeps rules Q (.ret a) t ↔ Q a t := Iff.rfl

theorem keeps_bind {Q : β → σ → Prop} {c : Coro Op Res α} {f : α → Coro Op Res β} {t : σ} :
    Keeps rules Q (c >>= f) t ↔ Keeps rules (fun a u => Keeps rules Q (f a) u) c t := by
  induction c generalizing t with
  | ret a => exact Iff.rfl
  | await op k ih =>
    constructor
    · exact fun h => ⟨h.1, fun r u hr => (ih r).mp (h.2 r u hr)⟩
    · exact fun h => ⟨h.1, fun r u hr => (ih r).mpr (h.2 r u hr)⟩

theorem keeps_mono {Q Q' : α → σ → Prop} {c : Coro Op Res α} {t : σ} (hc : Keeps rules Q c t)
    (h : ∀ a u, Q a u → Q' a u) : Keeps rules Q' c t := by
  induction c generalizing t with
  | ret a => exact h a t hc
  | await op k ih => exact ⟨hc.1, fun r u hr => ih r (hc.2 r u hr)⟩

theorem keeps_and {Q Q' : α → σ → Prop} {c : Coro Op Res α} {t : σ} (h : Keeps rules Q c t) (h' : Keeps rules Q' c t) :
    Keeps rules (fun a u => Q a u ∧ Q' a u) c t := by
  induction c generalizing t with
  | ret a => exact ⟨h, h'⟩
  | await op k ih => exact ⟨h.1, fun r u hr => ih r (h.2 r u hr) (h'.2 r u hr)⟩

/-- The operation is permitted and its answer leaves the state as it is. -/
def Rules.Ignores (t : σ) (op : Op) : Prop := rules.permits t op ∧ ∀ r u, rules.follows t op r u → u = t

/-- Everything is permitted, and every answer is noted. -/
def observing (observe : σ → (op : Op) → Res op → σ) : Rules Op Res σ where
  permits _ _ := True
  follows t op r u := u = observe t op r

variable (rules)

/-- Runs to the end against services that answer as the rules say. -/
inductive Ends : Coro Op Res α → σ → α → σ → Prop
  | ret {a : α} {t : σ} : Ends (.ret a) t a t
  | await {op : Op} {k : Res op → Coro Op Res α} {r : Res op} {t u v : σ} {a : α} :
      rules.follows t op r u → Ends (k r) u a v → Ends (.await op k) t a v

variable {rules}

/-- What a program keeps to, every run of it does. -/
theorem Ends.keeps {Q : α → σ → Prop} {c : Coro Op Res α} {t u : σ} {a : α} (h : Ends rules c t a u)
    (hc : Keeps rules Q c t) : Q a u := by
  induction h with
  | ret => exact hc
  | await hfollows _ ih => exact ih (hc.2 _ _ hfollows)

/-- Where what is permitted can be answered with an invariant kept, there is a run. -/
theorem exists_ends {I : σ → Prop}
    (hanswer : ∀ op t, I t → rules.permits t op → ∃ r u, rules.follows t op r u ∧ I u)
    {Q : α → σ → Prop} {c : Coro Op Res α} {t : σ} (hc : Keeps rules Q c t) (hi : I t) :
    ∃ a u, Ends rules c t a u ∧ Q a u ∧ I u := by
  induction c generalizing t with
  | ret a => exact ⟨a, t, .ret, hc, hi⟩
  | await op k ih =>
    obtain ⟨r, u, hfollows, hu⟩ := hanswer op t hi hc.1
    obtain ⟨a, v, hends, hQ, hv⟩ := ih r (hc.2 r u hfollows) hu
    exact ⟨a, v, .await hfollows hends, hQ, hv⟩

/-- A handler that answers as the rules say makes a run. -/
theorem ends_run {exec : (op : Op) → σ → Res op × σ}
    (hexec : ∀ op t, rules.follows t op (exec op t).1 (exec op t).2) (c : Coro Op Res α) (t : σ) :
    Ends rules c t (run exec c t).1 (run exec c t).2 := by
  induction c generalizing t with
  | ret a => exact .ret
  | await op k ih => exact .await (hexec op t) (ih _ _)

end Keeps

end Coro

end Coroutine
