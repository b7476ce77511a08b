import Linksurf.Coroutine
import Mathlib.Logic.Function.Basic

/-!
# Pools of coroutines over shared state

Threads interleave operation by operation. A discipline says what holds of the
shared state between any two operations, what each thread may rely on while the
others run, and what a thread owes before each operation it issues. Threads are
checked one at a time against their relies; the guarantee makes the checks fit
together, whatever the order of operations.
-/
namespace Pool

open Coroutine

universe u

variable {T : Type} {S : Type u} {Op : Type} {Res : Op → Type} {α β : Type}

/-- The shared state and the running threads. -/
structure State (T : Type) (S : Type u) (Op : Type) (Res : Op → Type) where
  shared : S
  threads : T → Option (Coro Op Res Unit)

section Run

variable [DecidableEq T]

/-- Start a thread. -/
def State.spawn (p : State T S Op Res) (t : T) (c : Coro Op Res Unit) : State T S Op Res :=
  { p with threads := Function.update p.threads t (some c) }

/-- A thread issues its next operation, or ends. -/
def State.run (exec : (op : Op) → S → Option (Res op × S)) (p : State T S Op Res) (t : T) :
    Option (State T S Op Res) :=
  match p.threads t with
  | none => none
  | some (.ret _) => some { p with threads := Function.update p.threads t none }
  | some (.await op k) =>
    (exec op p.shared).map (fun (r, s) => ⟨s, Function.update p.threads t (some (k r))⟩)

/-- A thread runs by ending or by one operation of its own. -/
theorem State.run_cases {exec : (op : Op) → S → Option (Res op × S)} {p p' : State T S Op Res} {t : T}
    (h : p.run exec t = some p') :
    (∃ a, p.threads t = some (.ret a) ∧ p' = { p with threads := Function.update p.threads t none }) ∨
    ∃ op k r s, p.threads t = some (.await op k) ∧ exec op p.shared = some (r, s) ∧
      p' = ⟨s, Function.update p.threads t (some (k r))⟩ := by
  unfold State.run at h
  split at h
  · cases h
  · rename_i a he
    cases h
    exact .inl ⟨a, he, rfl⟩
  · rename_i op k he
    obtain ⟨⟨r, s⟩, hexec, hp⟩ := Option.map_eq_some_iff.mp h
    exact .inr ⟨op, k, r, s, he, hexec, hp.symm⟩

end Run

/-! ## Disciplines -/

structure Discipline (T : Type) (S : Type u) (Op : Type) (Res : Op → Type) where
  /-- Holds of the shared state between any two operations. -/
  inv : S → Prop
  /-- What a thread sees of the steps of the others. -/
  rely : T → S → S → Prop
  /-- What a thread owes before it issues an operation. -/
  pre : T → Op → S → Prop
  exec : T → (op : Op) → S → Res op → S → Prop
  refl : ∀ t s, rely t s s
  trans : ∀ {t s s' s''}, rely t s s' → rely t s' s'' → rely t s s''

namespace Discipline

variable {D : Discipline T S Op Res} {t : T} {s : S}

/-- A thread at this point pays what it owes, as long as the others keep to
what it relies on; if it ends, `post` holds. -/
def Safe (D : Discipline T S Op Res) (t : T) (post : α → S → Prop) : Coro Op Res α → S → Prop
  | .ret a, s => ∀ s', D.rely t s s' → D.inv s' → post a s'
  | .await op k, s => ∀ s', D.rely t s s' → D.inv s' →
      D.pre t op s' ∧ ∀ r s'', D.exec t op s' r s'' → Safe D t post (k r) s''

/-- An assertion the others cannot falsify. -/
def Stable (D : Discipline T S Op Res) (t : T) (A : S → Prop) : Prop :=
  ∀ s s', D.inv s' → D.rely t s s' → A s → A s'

theorem stable_const (p : Prop) : D.Stable t (fun _ => p) := fun _ _ _ _ h => h

variable {post : α → S → Prop} {c : Coro Op Res α}

/-- Safety survives the steps of the others. -/
theorem Safe.later {s' : S} (h : D.Safe t post c s) (hr : D.rely t s s') : D.Safe t post c s' := by
  cases c with
  | ret a => exact fun s'' hr' hinv => h s'' (D.trans hr hr') hinv
  | await op k => exact fun s'' hr' hinv => h s'' (D.trans hr hr') hinv

/-- What is safe after any steps of the others is safe now. -/
theorem safe_of_later (h : ∀ s', D.rely t s s' → D.inv s' → D.Safe t post c s') : D.Safe t post c s := by
  cases c with
  | ret a => exact fun s' hr hinv => h s' hr hinv s' (D.refl t s') hinv
  | await op k => exact fun s' hr hinv => h s' hr hinv s' (D.refl t s') hinv

theorem safe_ret {A : S → Prop} (hA : D.Stable t A) (ha : A s) {a : α} (hpost : ∀ s, D.inv s → A s → post a s) :
    D.Safe t post (.ret a) s :=
  fun s' hr hinv => hpost s' hinv (hA s s' hinv hr ha)

/-- The rule for one operation: a stable assertion pays for it and is turned
into what the rest of the thread needs. -/
theorem safe_await {A : S → Prop} (hA : D.Stable t A) (ha : A s) {op : Op} {k : Res op → Coro Op Res α}
    (hpre : ∀ s, D.inv s → A s → D.pre t op s)
    (hk : ∀ s, D.inv s → A s → ∀ r s', D.exec t op s r s' → D.Safe t post (k r) s') :
    D.Safe t post (.await op k) s :=
  fun s' hr hinv => ⟨hpre s' hinv (hA s s' hinv hr ha), hk s' hinv (hA s s' hinv hr ha)⟩

/-- The same for an operation in front of the rest. -/
theorem safe_perform {A : S → Prop} (hA : D.Stable t A) (ha : A s) {op : Op} {k : Res op → Coro Op Res α}
    (hpre : ∀ s, D.inv s → A s → D.pre t op s)
    (hk : ∀ s, D.inv s → A s → ∀ r s', D.exec t op s r s' → D.Safe t post (k r) s') :
    D.Safe t post (Coro.perform op >>= k) s := safe_await hA ha hpre hk

theorem safe_bind {post' : β → S → Prop} {f : α → Coro Op Res β} (h : D.Safe t post c s)
    (hf : ∀ a s, D.inv s → post a s → D.Safe t post' (f a) s) : D.Safe t post' (c >>= f) s := by
  induction c generalizing s with
  | ret a => exact safe_of_later (fun s' hr hinv => hf a s' hinv (h s' hr hinv))
  | await op k ih =>
    intro s' hr hinv
    obtain ⟨hpre, hk⟩ := h s' hr hinv
    exact ⟨hpre, fun r s'' he => ih r (hk r s'' he)⟩

theorem safe_mono {post' : α → S → Prop} (h : D.Safe t post c s)
    (hp : ∀ a s, D.inv s → post a s → post' a s) : D.Safe t post' c s := by
  induction c generalizing s with
  | ret a => exact fun s' hr hinv => hp a s' hinv (h s' hr hinv)
  | await op k ih =>
    intro s' hr hinv
    obtain ⟨hpre, hk⟩ := h s' hr hinv
    exact ⟨hpre, fun r s'' he => ih r (hk r s'' he)⟩

/-- What holds of every operation a thread can issue need not be carried
through its assertions. -/
theorem safe_and_issues {A : (op : Op) → Res op → Prop} {P : Op → Prop} {Q : α → Prop}
    {pre : T → Op → S → Prop} (h : D.Safe t post c s) (hc : c.Issues A P Q)
    (hA : ∀ op s r s', D.exec t op s r s' → A op r)
    (hpre : ∀ op s, D.pre t op s → P op → pre t op s) :
    Safe { D with pre } t post c s := by
  induction c generalizing s with
  | ret a => exact h
  | await op k ih =>
    intro s' hr hinv
    obtain ⟨hp, hk⟩ := h s' hr hinv
    exact ⟨hpre op s' hp hc.1, fun r s'' he => ih r (hk r s'' he) (hc.2 r (hA op s' r s'' he))⟩

/-! ## Whole pools -/

/-- The invariant of a pool: the shared state's, and every thread is safe. -/
structure Holds (D : Discipline T S Op Res) (p : State T S Op Res) : Prop where
  inv : D.inv p.shared
  safe : ∀ t c, p.threads t = some c → D.Safe t (fun _ _ => True) c p.shared

/-- A step of the surroundings: threads that stay see what they rely on. -/
theorem Holds.change {p p' : State T S Op Res} (h : D.Holds p) (hinv : D.inv p'.shared)
    (hthreads : ∀ t c, p'.threads t = some c → (p.threads t = some c ∧ D.rely t p.shared p'.shared) ∨
      D.Safe t (fun _ _ => True) c p'.shared) : D.Holds p' where
  inv := hinv
  safe t c hc := (hthreads t c hc).elim (fun hold => (h.safe t c hold.1).later hold.2) id

/-- What the thread about to issue an operation owes for it. -/
theorem Holds.pre {p : State T S Op Res} (h : D.Holds p) {op : Op} {k : Res op → Coro Op Res Unit}
    (hc : p.threads t = some (.await op k)) : D.pre t op p.shared :=
  (h.safe t _ hc p.shared (D.refl t _) h.inv).1

variable [DecidableEq T]

/-- A thread's operation keeps the pool's invariant when paying for it keeps
the shared invariant and what the others rely on. -/
theorem Holds.run {exec : (op : Op) → S → Option (Res op × S)} {p p' : State T S Op Res} (h : D.Holds p)
    (hexec : ∀ op r s, exec op p.shared = some (r, s) → D.exec t op p.shared r s)
    (hguarantee : ∀ op r s, D.pre t op p.shared → D.exec t op p.shared r s →
      D.inv s ∧ ∀ u, u ≠ t → D.rely u p.shared s)
    (hrun : p.run exec t = some p') : D.Holds p' := by
  rcases State.run_cases hrun with ⟨a, -, rfl⟩ | ⟨op, k, r, s, hc, he, rfl⟩
  · refine h.change h.inv (fun u c hu => .inl ?_)
    by_cases hut : u = t
    · subst hut; simp at hu
    · exact ⟨by simpa [hut] using hu, D.refl u _⟩
  · obtain ⟨hpre, hk⟩ := h.safe t _ hc p.shared (D.refl t _) h.inv
    obtain ⟨hinv, hothers⟩ := hguarantee op r s hpre (hexec op r s he)
    refine h.change hinv (fun u c hu => ?_)
    by_cases hut : u = t
    · subst hut
      obtain rfl : k r = c := by simpa using hu
      exact .inr (hk r s (hexec op r s he))
    · exact .inl ⟨by simpa [hut] using hu, hothers u hut⟩

/-- A started thread only has to be safe itself. -/
theorem Holds.spawn {p : State T S Op Res} (h : D.Holds p) {c : Coro Op Res Unit}
    (hc : D.Safe t (fun _ _ => True) c p.shared) : D.Holds (p.spawn t c) := by
  refine h.change h.inv (fun u c' hu => ?_)
  by_cases hut : u = t
  · subst hut
    obtain rfl : c = c' := by simpa [State.spawn] using hu
    exact .inr hc
  · exact .inl ⟨by simpa [State.spawn, hut] using hu, D.refl u _⟩

end Discipline

end Pool
