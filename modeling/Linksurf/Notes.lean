import Linksurf.Procedure

/-!
# Programs that announce what they do

Notes are operations nobody answers. Without its notes such a program is one
over the operations alone.
-/
namespace Coroutine

/-- An operation, or a note. -/
inductive Noted (Op N : Type) where
  | op (op : Op)
  | note (n : N)

@[reducible] def Noted.Reply {Op N : Type} (Res : Op → Type) : Noted Op N → Type
  | .op o => Res o
  | .note _ => Unit

variable {Op N : Type} {Res : Op → Type} {E S α β : Type}

namespace Coro

/-- The program without its notes. -/
def erase : Coro (Noted Op N) (Noted.Reply Res) α → Coro Op Res α
  | .ret a => .ret a
  | .await (.op o) k => .await o (fun r => erase (k r))
  | .await (.note _) k => erase (k ())

/-- A program that announces nothing. -/
def quietly : Coro Op Res α → Coro (Noted Op N) (Noted.Reply Res) α
  | .ret a => .ret a
  | .await o k => .await (.op o) (fun r => quietly (k r))

theorem erase_bind (c : Coro (Noted Op N) (Noted.Reply Res) α) (f : α → Coro (Noted Op N) (Noted.Reply Res) β) :
    (c >>= f).erase = c.erase >>= fun a => (f a).erase := by
  induction c with
  | ret a => rfl
  | await o k ih =>
    cases o with
    | op o =>
      have hk : (fun r => (k r >>= f).erase) = fun r => (k r).erase >>= fun a => (f a).erase := funext ih
      exact congrArg (Coro.await o) hk
    | note n => exact ih ()

theorem erase_quietly (c : Coro Op Res α) : (quietly c : Coro (Noted Op N) (Noted.Reply Res) α).erase = c := by
  induction c with
  | ret a => rfl
  | await o k ih => exact congrArg (Coro.await o) (funext ih)

end Coro

namespace Proc

abbrev Announcing (Op N : Type) (Res : Op → Type) (E S α : Type) : Type := Proc (Noted Op N) (Noted.Reply Res) E S α

def erase (x : Announcing Op N Res E S α) : Proc Op Res E S α := fun s => (x s).erase

def quietly (x : Proc Op Res E S α) : Announcing Op N Res E S α := fun s => (x s).quietly

def note (n : N) : Announcing Op N Res E S Unit := fun s => .await (Noted.note n) (fun _ => .ret (.ok (), s))

theorem erase_bind (x : Announcing Op N Res E S α) (f : α → Announcing Op N Res E S β) :
    erase (x >>= f) = erase x >>= fun a => erase (f a) := by
  funext s
  change (x s >>= Proc.proceed f).erase = (x s).erase >>= Proc.proceed fun a => erase (f a)
  rw [Coro.erase_bind]
  congr 1
  funext r
  obtain ⟨r, s⟩ := r
  cases r <;> rfl

@[simp] theorem erase_quietly (x : Proc Op Res E S α) : erase (quietly x : Announcing Op N Res E S α) = x := by
  funext s
  exact Coro.erase_quietly (x s)

@[simp] theorem erase_pure (a : α) : erase (pure a : Announcing Op N Res E S α) = pure a := rfl

@[simp] theorem erase_raise (e : E) : erase (Proc.raise e : Announcing Op N Res E S α) = Proc.raise e := rfl

@[simp] theorem erase_read : erase (Proc.read : Announcing Op N Res E S S) = Proc.read := rfl

@[simp] theorem erase_assign (f : S → S) : erase (Proc.assign f : Announcing Op N Res E S Unit) = Proc.assign f := rfl

@[simp] theorem erase_note (n : N) : erase (note n : Announcing Op N Res E S Unit) = pure () := rfl

@[simp] theorem pure_step (a : α) (f : α → Proc Op Res E S β) : (pure a : Proc Op Res E S α) >>= f = f a := rfl

/-- A program that announces nothing keeps to rules about its operations. -/
theorem keeps_quietly {σ : Type} {rules : Coro.Rules (Noted Op N) (Noted.Reply Res) σ} {Q : Except E α → S → σ → Prop}
    {x : Proc Op Res E S α} {s : S} {t : σ} :
    Keeps rules Q (quietly x) s t ↔
      Keeps ⟨fun t o => rules.permits t (.op o), fun t o r u => rules.follows t (.op o) r u⟩ Q x s t := by
  have hcoro (c : Coro Op Res (Except E α × S)) (t : σ) :
      Coro.Keeps rules (fun r u => Q r.1 r.2 u) c.quietly t ↔
        Coro.Keeps ⟨fun t o => rules.permits t (.op o), fun t o r u => rules.follows t (.op o) r u⟩
          (fun r u => Q r.1 r.2 u) c t := by
    induction c generalizing t with
    | ret a => exact Iff.rfl
    | await o k ih =>
      constructor
      · exact fun h => ⟨h.1, fun r u hr => (ih r u).mp (h.2 r u hr)⟩
      · exact fun h => ⟨h.1, fun r u hr => (ih r u).mpr (h.2 r u hr)⟩
  exact hcoro (x s) t

end Proc

end Coroutine
