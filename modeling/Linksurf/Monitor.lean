import Mathlib.Data.List.Nodup
import Mathlib.Data.List.Pairwise
import Mathlib.Logic.Function.Basic
import Mathlib.Tactic.Common

/-!
# Tasks in lock regions

Tasks of one event loop share FIFO locks. Every program point belongs to the
regions of the locks it is in line for or holds, and a task runs when it holds
the locks of its regions. Moving to another point joins the lines of the
regions entered and leaves those of the regions left, so a block guarded by a
lock is a set of program points.
-/
namespace Monitor

abbrev TaskId := Nat

/-- A FIFO lock. Releasing it leaves it free until the first in line is woken. -/
structure Mutex where
  holder : Option TaskId := none
  waiters : List TaskId := []
  deriving DecidableEq

namespace Mutex

def locked (m : Mutex) : Bool := m.holder.isSome

/-- Everybody in line, the holder first. -/
def line (m : Mutex) : List TaskId := m.holder.toList ++ m.waiters

/-- A free lock nobody waits for is taken at once. -/
def acquire (m : Mutex) (t : TaskId) : Mutex :=
  if m.holder = none ∧ m.waiters = [] then ⟨some t, []⟩ else ⟨m.holder, m.waiters ++ [t]⟩

def release (m : Mutex) : Mutex := ⟨none, m.waiters⟩

/-- Wake the first in line of a free lock. -/
def grant (m : Mutex) : Mutex :=
  match m.holder, m.waiters with
  | none, t :: rest => ⟨some t, rest⟩
  | _, _ => m

@[simp] theorem line_acquire (m : Mutex) (t : TaskId) : (m.acquire t).line = m.line ++ [t] := by
  unfold acquire
  split
  · rename_i h; simp [line, h]
  · simp [line]

theorem line_release {m : Mutex} {t : TaskId} (h : m.holder = some t) :
    m.line = t :: m.release.line := by simp [line, release, h]

@[simp] theorem line_grant (m : Mutex) : m.grant.line = m.line := by
  obtain ⟨_ | _, _ | _⟩ := m <;> simp [grant, line]

theorem holder_acquire {m : Mutex} {t t' : TaskId} (h : m.holder = some t') :
    (m.acquire t).holder = some t' := by simp [acquire, h]

theorem holder_grant {m : Mutex} {t : TaskId} (h : m.holder = some t) : m.grant.holder = some t := by
  simp [grant, h]

theorem head_of_holder {m : Mutex} {t : TaskId} (h : m.holder = some t) : m.line = t :: m.waiters := by
  simp [line, h]

end Mutex

variable {Pc K : Type}

structure Tasks (Pc K : Type) where
  locks : K → Mutex
  pcs : List Pc

namespace Tasks

def empty : Tasks Pc K := ⟨fun _ => {}, []⟩

def spawn (s : Tasks Pc K) (new : List Pc) : Tasks Pc K := { s with pcs := s.pcs ++ new }

/-- The task holds every lock of its regions. -/
def entitled (region : Pc → List K) (s : Tasks Pc K) (t : TaskId) (pc : Pc) : Bool :=
  (region pc).all (fun k => (s.locks k).holder = some t)

/-- The lines hold exactly the tasks in the region, each once. -/
structure Lined (region : Pc → List K) (s : Tasks Pc K) : Prop where
  nodup : ∀ k, (s.locks k).line.Nodup
  mem : ∀ k t, t ∈ (s.locks k).line ↔ ∃ pc, s.pcs[t]? = some pc ∧ k ∈ region pc

/-- Points reached only with the listed locks held. -/
def Held (inside : Pc → List K) (s : Tasks Pc K) : Prop :=
  ∀ t pc, s.pcs[t]? = some pc → ∀ k ∈ inside pc, (s.locks k).holder = some t

/-- Nobody at a late point is ahead in line of somebody at an early point. -/
def InOrder (early late : Pc → Prop) (k : K) (s : Tasks Pc K) : Prop :=
  (s.locks k).line.Pairwise (fun a b => ∀ p q, s.pcs[a]? = some p → s.pcs[b]? = some q → late p → ¬ early q)

variable {region inside : Pc → List K} {early late : Pc → Prop} {s : Tasks Pc K} {t : TaskId}
  {pc pc' : Pc} {k : K}

theorem holder_of_entitled (h : s.entitled region t pc) (hk : k ∈ region pc) :
    (s.locks k).holder = some t := by
  simpa using List.all_eq_true.mp h k hk

theorem pcs_spawn {new : List Pc} {u : TaskId} {p : Pc} (h : (s.spawn new).pcs[u]? = some p) :
    s.pcs[u]? = some p ∨ p ∈ new := by
  change (s.pcs ++ new)[u]? = some p at h
  rcases Nat.lt_or_ge u s.pcs.length with hlt | hge
  · exact .inl (by rwa [List.getElem?_append_left hlt] at h)
  · rw [List.getElem?_append_right hge] at h
    exact .inr (List.mem_of_getElem? h)

theorem pcs_spawn_of {new : List Pc} {u : TaskId} {p : Pc} (h : s.pcs[u]? = some p) :
    (s.spawn new).pcs[u]? = some p := by
  obtain ⟨hlt, -⟩ := List.getElem?_eq_some_iff.mp h
  change (s.pcs ++ new)[u]? = some p
  rw [List.getElem?_append_left hlt, h]

theorem empty_lined : (empty : Tasks Pc K).Lined region where
  nodup _ := List.nodup_nil
  mem k t := by simp [empty, Mutex.line]

theorem Lined.self (h : s.Lined region) (hpc : s.pcs[t]? = some pc) :
    t ∈ (s.locks k).line ↔ k ∈ region pc := by
  rw [h.mem, hpc]
  simp

theorem Lined.spawn (h : s.Lined region) {new : List Pc} (hnew : ∀ p ∈ new, region p = []) :
    (s.spawn new).Lined region where
  nodup := h.nodup
  mem k t := by
    change t ∈ (s.locks k).line ↔ _
    rw [h.mem]
    constructor
    · rintro ⟨p, hp, hk⟩; exact ⟨p, pcs_spawn_of hp, hk⟩
    · rintro ⟨p, hp, hk⟩
      refine ⟨p, (pcs_spawn hp).resolve_right (fun hin => ?_), hk⟩
      rw [hnew p hin] at hk
      cases hk

theorem empty_held : Held inside (empty : Tasks Pc K) := by
  intro t pc h
  simp [empty] at h

theorem Held.spawn (h : s.Held inside) {new : List Pc} (hnew : ∀ p ∈ new, inside p = []) :
    (s.spawn new).Held inside := by
  intro t p hp k hk
  refine h t p ((pcs_spawn hp).resolve_right (fun hin => ?_)) k hk
  rw [hnew p hin] at hk
  cases hk

/-- Two tasks past the entry of one lock's region are the same task. -/
theorem Held.exclusive (h : s.Held inside) {u : TaskId} {p q : Pc} (hp : s.pcs[t]? = some p)
    (hq : s.pcs[u]? = some q) (hk : k ∈ inside p) (hk' : k ∈ inside q) : t = u :=
  Option.some.inj ((h t p hp k hk).symm.trans (h u q hq k hk'))

theorem empty_inOrder : InOrder early late k (empty : Tasks Pc K) := .nil

theorem InOrder.spawn (h : s.InOrder early late k) (hl : s.Lined region) {new : List Pc} :
    (s.spawn new).InOrder early late k := by
  refine List.Pairwise.imp_of_mem (fun {a b} ha hb hab p q hp hq => ?_) h
  obtain ⟨p', hp', -⟩ := (hl.mem k a).mp ha
  obtain ⟨q', hq', -⟩ := (hl.mem k b).mp hb
  rw [pcs_spawn_of hp'] at hp
  rw [pcs_spawn_of hq'] at hq
  exact hab p q (hp'.trans hp) (hq'.trans hq)

/-- Behind a late holder nobody in line is at an early point. -/
theorem InOrder.behind (h : s.InOrder early late k) (hl : s.Lined region) (hpc : s.pcs[t]? = some pc)
    (hold : (s.locks k).holder = some t) (hlate : late pc) {u : TaskId} {q : Pc}
    (hq : s.pcs[u]? = some q) (hk : k ∈ region q) (hne : u ≠ t) : ¬ early q := by
  have hu := (hl.mem k u).mpr ⟨q, hq, hk⟩
  rw [InOrder, Mutex.head_of_holder hold] at h
  rw [Mutex.head_of_holder hold] at hu
  rcases List.mem_cons.mp hu with rfl | hu
  · exact absurd rfl hne
  · exact (List.pairwise_cons.mp h).1 u hu pc q hpc hq hlate

variable [DecidableEq K]

def move (region : Pc → List K) (s : Tasks Pc K) (t : TaskId) (pc pc' : Pc) : Tasks Pc K where
  locks k := if k ∈ region pc' then (if k ∈ region pc then s.locks k else (s.locks k).acquire t)
    else if k ∈ region pc then (s.locks k).release else s.locks k
  pcs := s.pcs.set t pc'

def grant (s : Tasks Pc K) (k : K) : Tasks Pc K :=
  { s with locks := Function.update s.locks k (s.locks k).grant }

/-! ## One move -/

theorem pcs_move_same (h : s.pcs[t]? = some pc) : (s.move region t pc pc').pcs[t]? = some pc' := by
  obtain ⟨hlt, -⟩ := List.getElem?_eq_some_iff.mp h
  simp [move, hlt]

theorem pcs_move_other {u : TaskId} (h : u ≠ t) : (s.move region t pc pc').pcs[u]? = s.pcs[u]? := by
  simp [move, h.symm]

/-- A move takes a task from one count to another. -/
theorem countP_move (h : s.pcs[t]? = some pc) (f : Pc → Bool) :
    (s.move region t pc pc').pcs.countP f + (if f pc then 1 else 0) =
      s.pcs.countP f + if f pc' then 1 else 0 := by
  obtain ⟨hlt, he⟩ := List.getElem?_eq_some_iff.mp h
  have hpos : f pc → 0 < s.pcs.countP f := fun hf =>
    List.countP_pos_iff.mpr ⟨pc, List.mem_of_getElem? h, hf⟩
  change (s.pcs.set t pc').countP f + _ = _
  rw [List.countP_set hlt, he]
  split <;> rename_i hf
  · have := hpos hf
    omega
  · omega

theorem line_enter (hk : k ∉ region pc) (hk' : k ∈ region pc') :
    ((s.move region t pc pc').locks k).line = (s.locks k).line ++ [t] := by
  simp [move, hk, hk']

theorem line_leave (h : s.entitled region t pc) (hk : k ∈ region pc) (hk' : k ∉ region pc') :
    (s.locks k).line = t :: ((s.move region t pc pc').locks k).line := by
  simpa [move, hk, hk'] using Mutex.line_release (holder_of_entitled h hk)

theorem line_stay (h : k ∈ region pc ↔ k ∈ region pc') :
    ((s.move region t pc pc').locks k).line = (s.locks k).line := by
  by_cases hk : k ∈ region pc
  · simp [move, hk, h.mp hk]
  · have hk' : k ∉ region pc' := fun hin => hk (h.mpr hin)
    simp [move, hk, hk']

theorem Lined.move (h : s.Lined region) (hpc : s.pcs[t]? = some pc) (he : s.entitled region t pc) :
    (s.move region t pc pc').Lined region := by
  have hself : ∀ k, t ∈ (s.locks k).line ↔ k ∈ region pc := fun k => h.self hpc
  constructor
  · intro k
    by_cases hk : k ∈ region pc <;> by_cases hk' : k ∈ region pc'
    · rw [line_stay (by simp [hk, hk'])]; exact h.nodup k
    · have hn := h.nodup k
      rw [line_leave he hk hk'] at hn
      exact hn.of_cons
    · rw [line_enter hk hk', List.nodup_append_comm]
      exact List.nodup_cons.mpr ⟨fun hin => hk ((hself k).mp hin), h.nodup k⟩
    · rw [line_stay (by simp [hk, hk'])]; exact h.nodup k
  · intro k u
    by_cases hu : u = t
    · subst hu
      rw [pcs_move_same hpc]
      by_cases hk : k ∈ region pc <;> by_cases hk' : k ∈ region pc'
      · rw [line_stay (by simp [hk, hk']), hself]; simp [hk, hk']
      · have hn := h.nodup k
        rw [line_leave he hk hk'] at hn
        simp [hk', (List.nodup_cons.mp hn).1]
      · rw [line_enter hk hk']; simp [hk']
      · rw [line_stay (by simp [hk, hk']), hself]; simp [hk, hk']
    · rw [pcs_move_other hu, ← h.mem]
      by_cases hk : k ∈ region pc <;> by_cases hk' : k ∈ region pc'
      · rw [line_stay (by simp [hk, hk'])]
      · rw [line_leave he hk hk']; simp [hu]
      · rw [line_enter hk hk']; simp [hu]
      · rw [line_stay (by simp [hk, hk'])]

theorem Held.move (h : s.Held inside) (hpc : s.pcs[t]? = some pc) (he : s.entitled region t pc)
    (hin : ∀ k ∈ inside pc', k ∈ region pc ∧ k ∈ region pc') :
    (s.move region t pc pc').Held inside := by
  intro u p hp k hk
  by_cases hu : u = t
  · subst hu
    obtain rfl : pc' = p := Option.some.inj ((pcs_move_same hpc).symm.trans hp)
    obtain ⟨hr, hr'⟩ := hin k hk
    simpa [Tasks.move, hr, hr'] using holder_of_entitled he hr
  · rw [pcs_move_other hu] at hp
    have hold := h u p hp k hk
    have hleft : k ∉ region pc := fun hr =>
      hu (Option.some.inj (hold.symm.trans (holder_of_entitled he hr)))
    by_cases hk' : k ∈ region pc'
    · simpa [Tasks.move, hleft, hk'] using Mutex.holder_acquire hold
    · simpa [Tasks.move, hleft, hk'] using hold

/-- Order is kept when an early point is entered only with no late one about. -/
theorem InOrder.move (h : s.InOrder early late k) (hl : s.Lined region) (hpc : s.pcs[t]? = some pc)
    (he : s.entitled region t pc)
    (hstay : k ∈ region pc → k ∈ region pc' → (late pc' → late pc) ∧ (early pc' → early pc))
    (henter : k ∉ region pc → k ∈ region pc' → early pc' →
      ∀ (u : TaskId) p, s.pcs[u]? = some p → ¬ late p) :
    (s.move region t pc pc').InOrder early late k := by
  have hother : ∀ {a b : TaskId}, a ≠ t → b ≠ t →
      (∀ p q, s.pcs[a]? = some p → s.pcs[b]? = some q → late p → ¬ early q) →
      ∀ p q, (s.move region t pc pc').pcs[a]? = some p → (s.move region t pc pc').pcs[b]? = some q →
        late p → ¬ early q := by
    intro a b ha hb hab p q hp hq
    rw [pcs_move_other ha] at hp
    rw [pcs_move_other hb] at hq
    exact hab p q hp hq
  have hn := hl.nodup k
  have hself := hl.self (k := k) hpc
  unfold InOrder at h ⊢
  by_cases hk : k ∈ region pc <;> by_cases hk' : k ∈ region pc'
  · obtain ⟨hlate, hearly⟩ := hstay hk hk'
    rw [line_stay (by simp [hk, hk'])]
    -- the moved task is compared by the points it had before
    refine h.imp (fun {a b} hab p q hp hq hlp heq => ?_)
    have hold : ∀ {u : TaskId} {r : Pc}, (s.move region t pc pc').pcs[u]? = some r →
        ∃ r', s.pcs[u]? = some r' ∧ (late r → late r') ∧ (early r → early r') := by
      intro u r hr
      by_cases hu : u = t
      · subst hu
        obtain rfl : pc' = r := Option.some.inj ((pcs_move_same hpc).symm.trans hr)
        exact ⟨pc, hpc, hlate, hearly⟩
      · rw [pcs_move_other hu] at hr
        exact ⟨r, hr, id, id⟩
    obtain ⟨p', hp', hl', -⟩ := hold hp
    obtain ⟨q', hq', -, he'⟩ := hold hq
    exact hab p' q' hp' hq' (hl' hlp) (he' heq)
  · rw [line_leave he hk hk'] at h hn
    obtain ⟨hnot, -⟩ := List.nodup_cons.mp hn
    exact (List.pairwise_cons.mp h).2.imp_of_mem
      (fun {a b} ha hb => hother (fun e => hnot (e ▸ ha)) (fun e => hnot (e ▸ hb)))
  · have hnot : t ∉ (s.locks k).line := fun hin => hk (hself.mp hin)
    have hne : ∀ a ∈ (s.locks k).line, a ≠ t := fun a ha e => hnot (e ▸ ha)
    rw [line_enter hk hk', List.pairwise_append]
    refine ⟨h.imp_of_mem (fun {a b} ha hb => hother (hne a ha) (hne b hb)), List.pairwise_singleton _ _, ?_⟩
    intro a ha b hb p q hp hq hlp heq
    obtain rfl := List.mem_singleton.mp hb
    obtain rfl : pc' = q := Option.some.inj ((pcs_move_same hpc).symm.trans hq)
    rw [pcs_move_other (hne a ha)] at hp
    exact henter hk hk' heq a p hp hlp
  · have hnot : t ∉ (s.locks k).line := fun hin => hk (hself.mp hin)
    have hne : ∀ a ∈ (s.locks k).line, a ≠ t := fun a ha e => hnot (e ▸ ha)
    rw [line_stay (by simp [hk, hk'])]
    exact h.imp_of_mem (fun {a b} ha hb => hother (hne a ha) (hne b hb))

/-! ## Waking the first in line -/

theorem line_grant (k' : K) : ((s.grant k).locks k').line = (s.locks k').line := by
  by_cases hk : k' = k
  · subst hk; simp [grant]
  · simp [grant, hk]

theorem Lined.grant (h : s.Lined region) : (s.grant k).Lined region where
  nodup k' := by rw [line_grant]; exact h.nodup k'
  mem k' t := by rw [line_grant]; exact h.mem k' t

theorem Held.grant (h : s.Held inside) : (s.grant k).Held inside := by
  intro t p hp k' hk'
  have hold := h t p hp k' hk'
  by_cases he : k' = k
  · subst he; simpa [Tasks.grant] using Mutex.holder_grant hold
  · simpa [Tasks.grant, he] using hold

theorem InOrder.grant {k' : K} (h : s.InOrder early late k) : (s.grant k').InOrder early late k := by
  unfold InOrder
  rw [line_grant]
  exact h

end Tasks

end Monitor
