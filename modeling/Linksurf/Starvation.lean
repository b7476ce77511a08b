import Linksurf.Liveness
import Linksurf.Monitor
import Mathlib.Algebra.GroupWithZero.Nat

/-!
# Nobody waits for ever

Tasks in lock regions under a fair scheduler. A block is finite, and whoever
waits for a lock holds only locks of a higher rank. Then whoever is first in line
gets on with it, so that everybody in line gets the lock, and every task runs.
-/
namespace Monitor

open Execution

variable {Pc K : Type}

/-! ## Weights of points -/

namespace Tasks

variable {region : Pc → List K} {s : Tasks Pc K} {t : TaskId} {pc pc' : Pc}

/-- A quantity of the points, summed over the tasks. -/
def weight (f : Pc → Nat) (s : Tasks Pc K) : Nat := (s.pcs.map f).sum

theorem weight_spawn (f : Pc → Nat) (s : Tasks Pc K) (new : List Pc) :
    (s.spawn new).weight f = s.weight f + (new.map f).sum := by
  simp [weight, spawn]

theorem sum_map_set (f : Pc → Nat) (l : List Pc) (t : Nat) (h : l[t]? = some pc) :
    ((l.set t pc').map f).sum + f pc = (l.map f).sum + f pc' := by
  induction l generalizing t with
  | nil => simp at h
  | cons p l ih =>
    cases t with
    | zero =>
      obtain rfl : p = pc := by simpa using h
      simp only [List.set_cons_zero, List.map_cons, List.sum_cons]
      omega
    | succ t =>
      have := ih t (by simpa using h)
      simp only [List.set_cons_succ, List.map_cons, List.sum_cons]
      omega

theorem weight_move [DecidableEq K] (f : Pc → Nat) (h : s.pcs[t]? = some pc) :
    (s.move region t pc pc').weight f + f pc = s.weight f + f pc' := sum_map_set f s.pcs t h

end Tasks

variable [DecidableEq K]

/-- How program points use the locks. -/
structure Protocol (Pc K : Type) where
  region : Pc → List K
  inside : Pc → List K
  moves : Pc → Pc → Prop
  /-- Points a task is not resumed from. -/
  ended : Pc → Prop
  rank : K → Nat
  /-- Steps until a task leaves its regions, at most. -/
  left : Pc → Nat
  inside_of_moves : ∀ pc pc', moves pc pc' → ∀ k ∈ inside pc', k ∈ region pc ∧ k ∈ region pc'
  left_lt : ∀ pc pc' k, moves pc pc' → k ∈ region pc → k ∈ region pc' → left pc' < left pc
  rank_lt : ∀ pc, ∀ k ∈ region pc, k ∉ inside pc → ∀ k' ∈ region pc, k' ≠ k → rank k < rank k'
  region_of_ended : ∀ pc, ended pc → region pc = []

namespace Protocol

variable {D : Protocol Pc K}

/-- The task that runs in a step, if any, and what the step makes of the tasks. -/
inductive Step (D : Protocol Pc K) (s : Tasks Pc K) : Option TaskId → Tasks Pc K → Prop
  | ran {t pc pc' new} (hpc : s.pcs[t]? = some pc) (he : s.entitled D.region t pc) (hmoves : D.moves pc pc')
    (hnew : ∀ p ∈ new, D.region p = [] ∧ D.inside p = []) : Step D s (some t) ((s.move D.region t pc pc').spawn new)
  | granted (k : K) : Step D s none (s.grant k)
  | spawned {new} (hnew : ∀ p ∈ new, D.region p = [] ∧ D.inside p = []) : Step D s none (s.spawn new)

/-- A task that could run. -/
def Ready (D : Protocol Pc K) (s : Tasks Pc K) (t : TaskId) : Prop :=
  ∃ pc, s.pcs[t]? = some pc ∧ ¬ D.ended pc ∧ s.entitled D.region t pc

/-- An infinite run of the tasks under a fair scheduler: whoever could run for
good runs, and a lock that is free for good has nobody in line. -/
structure Schedule (D : Protocol Pc K) where
  tasks : Nat → Tasks Pc K
  turn : Nat → Option TaskId
  step : ∀ i, D.Step (tasks i) (turn i) (tasks (i + 1))
  lined : (tasks 0).Lined D.region
  held : (tasks 0).Held D.inside
  fair : ∀ t i, Later (fun j => turn j = some t ∨ ¬ D.Ready (tasks j) t) i
  wakes : ∀ k i, Later (fun j => ((tasks j).locks k).holder ≠ none ∨ ((tasks j).locks k).waiters = []) i

/-! ## One step -/

variable {s s' : Tasks Pc K} {turn : Option TaskId} {t u : TaskId} {k : K} {pc pc' : Pc}

theorem Step.lined (h : D.Step s turn s') (hl : s.Lined D.region) : s'.Lined D.region := by
  cases h with
  | ran hpc he _ hnew => exact (hl.move hpc he).spawn (fun p hp => (hnew p hp).1)
  | granted => exact hl.grant
  | spawned hnew => exact hl.spawn (fun p hp => (hnew p hp).1)

theorem Step.held (h : D.Step s turn s') (hh : s.Held D.inside) : s'.Held D.inside := by
  cases h with
  | ran hpc he hmoves hnew =>
    exact (hh.move hpc he (D.inside_of_moves _ _ hmoves)).spawn (fun p hp => (hnew p hp).2)
  | granted => exact hh.grant
  | spawned hnew => exact hh.spawn (fun p hp => (hnew p hp).2)

/-- A task that does not run stays where it is. -/
theorem Step.pcs (h : D.Step s turn s') (hturn : turn ≠ some t) (hpc : s.pcs[t]? = some pc) : s'.pcs[t]? = some pc := by
  cases h with
  | ran =>
    apply Tasks.pcs_spawn_of
    rw [Tasks.pcs_move_other (by rintro rfl; exact hturn rfl)]
    exact hpc
  | granted => exact hpc
  | spawned => exact Tasks.pcs_spawn_of hpc

/-- Nobody takes a lock from a task that does not run. -/
theorem Step.holder (h : D.Step s turn s') (hturn : turn ≠ some t) (hold : (s.locks k).holder = some t) :
    (s'.locks k).holder = some t := by
  cases h with
  | @ran u pc pc' new hpc he _ _ =>
    change ((s.move D.region u pc pc').locks k).holder = some t
    have hne : u ≠ t := by rintro rfl; exact hturn rfl
    have hleft : k ∉ D.region pc := fun hk =>
      hne (Option.some.inj ((Tasks.holder_of_entitled he hk).symm.trans hold))
    by_cases hk' : k ∈ D.region pc'
    · simpa [Tasks.move, hleft, hk'] using Mutex.holder_acquire hold
    · simpa [Tasks.move, hleft, hk'] using hold
  | granted k' =>
    by_cases hk : k = k'
    · subst hk
      simpa [Tasks.grant] using Mutex.holder_grant hold
    · simpa [Tasks.grant, hk] using hold
  | spawned => exact hold

/-- A holder that runs and stays in line keeps the lock, closer to the end of its
block. -/
theorem Step.stays (h : D.Step s (some u) s') (hl : s.Lined D.region) (hold : (s.locks k).holder = some u)
    (hin : u ∈ (s'.locks k).line) : (s'.locks k).holder = some u ∧
      ∃ pc pc', s.pcs[u]? = some pc ∧ s'.pcs[u]? = some pc' ∧ D.left pc' < D.left pc := by
  have hbefore : u ∈ (s.locks k).line := by simp [Mutex.line, hold]
  cases h with
  | @ran _ pc pc' new hpc he hmoves hnew =>
    have hnext : (s.move D.region u pc pc').pcs[u]? = some pc' := Tasks.pcs_move_same hpc
    have hlined : (s.move D.region u pc pc').Lined D.region := hl.move hpc he
    have hk : k ∈ D.region pc := (hl.self hpc).mp hbefore
    have hk' : k ∈ D.region pc' := (hlined.self hnext).mp hin
    refine ⟨?_, pc, pc', hpc, Tasks.pcs_spawn_of hnext, D.left_lt pc pc' k hmoves hk hk'⟩
    change ((s.move D.region u pc pc').locks k).holder = some u
    simpa [Tasks.move, hk, hk'] using hold

/-- The lines are served in order. -/
theorem Step.line (h : D.Step s turn s') (k : K) : (s'.locks k).line = (s.locks k).line ∨
    (∃ u, (s'.locks k).line = (s.locks k).line ++ [u]) ∨
    ∃ u, turn = some u ∧ (s.locks k).line = u :: (s'.locks k).line := by
  cases h with
  | @ran u pc pc' new hpc he _ _ =>
    change ((s.move D.region u pc pc').locks k).line = _ ∨ (∃ v, ((s.move D.region u pc pc').locks k).line = _) ∨
      ∃ v, some u = some v ∧ (s.locks k).line = v :: ((s.move D.region u pc pc').locks k).line
    by_cases hk : k ∈ D.region pc <;> by_cases hk' : k ∈ D.region pc'
    · exact .inl (Tasks.line_stay (by simp [hk, hk']))
    · exact .inr (.inr ⟨u, rfl, Tasks.line_leave he hk hk'⟩)
    · exact .inr (.inl ⟨u, Tasks.line_enter hk hk'⟩)
    · exact .inl (Tasks.line_stay (by simp [hk, hk']))
  | granted k' => exact .inl (Tasks.line_grant k)
  | spawned => exact .inl rfl

/-- Whoever stays in line keeps its place or moves up. -/
theorem idxOf_line {line line' : List TaskId} (ht : t ∈ line) (ht' : t ∈ line') (hnodup : line.Nodup)
    (h : line' = line ∨ (∃ u, line' = line ++ [u]) ∨ ∃ u, line = u :: line') : line'.idxOf t ≤ line.idxOf t := by
  obtain rfl | ⟨u, rfl⟩ | ⟨u, rfl⟩ := h
  · exact le_refl _
  · rw [List.idxOf_append_of_mem ht]
  · have hne : u ≠ t := by
      rintro rfl
      exact (List.nodup_cons.mp hnodup).1 ht'
    rw [List.idxOf_cons_ne _ hne]
    exact Nat.le_succ _

/-! ## Runs -/

namespace Schedule

variable {c : D.Schedule} {i j : Nat}

theorem lined_at (c : D.Schedule) (i : Nat) : (c.tasks i).Lined D.region := by
  induction i with
  | zero => exact c.lined
  | succ i ih => exact (c.step i).lined ih

theorem held_at (c : D.Schedule) (i : Nat) : (c.tasks i).Held D.inside := by
  induction i with
  | zero => exact c.held
  | succ i ih => exact (c.step i).held ih

theorem pcs_onward (hidle : Onward (fun j => c.turn j ≠ some t) i) (hpc : (c.tasks i).pcs[t]? = some pc) :
    Onward (fun j => (c.tasks j).pcs[t]? = some pc) i :=
  onward_of_step hpc (fun j hj hp => (c.step j).pcs (hidle j hj) hp)

theorem holder_onward (hidle : Onward (fun j => c.turn j ≠ some t) i) (hold : ((c.tasks i).locks k).holder = some t) :
    Onward (fun j => ((c.tasks j).locks k).holder = some t) i :=
  onward_of_step hold (fun j hj hh => (c.step j).holder (hidle j hj) hh)

theorem pcs_until (hij : i ≤ j) (hidle : ∀ n, i ≤ n → n < j → c.turn n ≠ some t) (hpc : (c.tasks i).pcs[t]? = some pc) :
    (c.tasks j).pcs[t]? = some pc := by
  induction j, hij using Nat.le_induction with
  | base => exact hpc
  | succ j hj ih =>
    have hbefore := ih (fun n hn hlt => hidle n hn (hlt.trans (Nat.lt_succ_self j)))
    exact (c.step j).pcs (hidle j hj (Nat.lt_succ_self j)) hbefore

/-- A task that gets all its locks runs. -/
theorem later_turn_of_holds (hpc : (c.tasks i).pcs[t]? = some pc) (hended : ¬ D.ended pc)
    (h : ∀ k ∈ D.region pc, Later (fun j => ((c.tasks j).locks k).holder = some t ∨ c.turn j = some t) i) :
    Later (fun j => c.turn j = some t) i := by
  by_contra hnever
  have hidle : Onward (fun j => c.turn j ≠ some t) i := fun j hj hturn => hnever ⟨j, hj, hturn⟩
  have hall : ∀ k ∈ D.region pc, Later (Onward (fun j => ((c.tasks j).locks k).holder = some t)) i := by
    intro k hk
    obtain ⟨j, hj, hhold | hturn⟩ := h k hk
    · exact ⟨j, hj, holder_onward (hidle.from hj) hhold⟩
    · exact absurd hturn (hidle j hj)
  obtain ⟨j, hj, hholds⟩ := later_all (D.region pc) (fun k j => ((c.tasks j).locks k).holder = some t) hall
  obtain ⟨m, hm, hturn | hready⟩ := c.fair t j
  · exact hidle m (hj.trans hm) hturn
  · have hentitled : (c.tasks m).entitled D.region t pc = true := by
      simpa [Tasks.entitled] using hholds m hm
    exact hready ⟨pc, pcs_onward hidle hpc m (hj.trans hm), hended, hentitled⟩

/-- The holder of a lock runs, if it gets the locks of lower rank. -/
theorem later_turn_of_holder
    (hlower : ∀ k' t i pc, D.rank k' < D.rank k → (c.tasks i).pcs[t]? = some pc → k' ∈ D.region pc →
      Later (fun j => ((c.tasks j).locks k').holder = some t ∨ c.turn j = some t) i)
    (hold : ((c.tasks i).locks k).holder = some u) : Later (fun j => c.turn j = some u) i := by
  have hin : u ∈ ((c.tasks i).locks k).line := by simp [Mutex.line, hold]
  obtain ⟨pc, hpc, hk⟩ := ((c.lined_at i).mem k u).mp hin
  apply later_turn_of_holds hpc
  · intro hended
    rw [D.region_of_ended pc hended] at hk
    cases hk
  · intro k' hk'
    by_cases hkk : k = k'
    · subst hkk
      exact .now (.inl hold)
    · by_cases hinside : k' ∈ D.inside pc
      · exact .now (.inl (c.held_at i u pc hpc k' hinside))
      · exact hlower k' u i pc (D.rank_lt pc k' hk' hinside k hk hkk) hpc hk'

/-- The first in line leaves: each of its steps brings it closer to the end of
its block. -/
theorem later_left
    (hruns : ∀ j, i ≤ j → ((c.tasks j).locks k).holder = some u → Later (fun j => c.turn j = some u) j)
    (hold : ((c.tasks i).locks k).holder = some u) : Later (fun j => u ∉ ((c.tasks j).locks k).line) i := by
  by_contra hnever
  have hin : ∀ j, i ≤ j → u ∈ ((c.tasks j).locks k).line := by
    intro j hj
    by_contra hout
    exact hnever ⟨j, hj, hout⟩
  -- it never leaves, so it keeps the lock whether it runs or not
  have hstays (j : Nat) (hj : i ≤ j) (hhold : ((c.tasks j).locks k).holder = some u) (hturn : c.turn j = some u) :=
    (hturn ▸ c.step j).stays (c.lined_at j) hhold (hin (j + 1) (hj.trans (Nat.le_succ j)))
  have hholds : Onward (fun j => ((c.tasks j).locks k).holder = some u) i := by
    refine onward_of_step ?_ ?_
    · exact hold
    · intro j hj hhold
      by_cases hturn : c.turn j = some u
      · exact (hstays j hj hhold hturn).1
      · exact (c.step j).holder hturn hhold
  have hfalse : Later (fun _ => False) i := by
    apply later_of_measure (fun j => ((c.tasks j).pcs[u]?).elim 0 D.left)
    intro j hj _
    obtain ⟨m, hm, hturn, hfirst⟩ := (hruns j hj (hholds j hj)).first
    obtain ⟨-, pc, pc', hpc, hpc', hlt⟩ := hstays m (hj.trans hm) (hholds m (hj.trans hm)) hturn
    obtain ⟨pc₀, hpc₀, -⟩ := ((c.lined_at j).mem k u).mp (hin j hj)
    obtain rfl := Option.some.inj ((pcs_until hm hfirst hpc₀).symm.trans hpc)
    refine ⟨m + 1, hm.trans (Nat.le_succ m), .inr ?_⟩
    rw [hpc₀, hpc']
    exact hlt
  obtain ⟨-, -, h⟩ := hfalse
  exact h

theorem idxOf_le (c : D.Schedule) (hin : ∀ j, i ≤ j → t ∈ ((c.tasks j).locks k).line) :
    Onward (fun j => ((c.tasks (j + 1)).locks k).line.idxOf t ≤ ((c.tasks j).locks k).line.idxOf t) i := by
  intro j hj
  apply idxOf_line (hin j hj) (hin (j + 1) (hj.trans (Nat.le_succ j))) ((c.lined_at j).nodup k)
  obtain h | h | ⟨u, -, h⟩ := (c.step j).line k
  · exact .inl h
  · exact .inr (.inl h)
  · exact .inr (.inr ⟨u, h⟩)

/-- When the first in line has left, everybody behind moved up. -/
theorem idxOf_lt (hin : ∀ j, i ≤ j → t ∈ ((c.tasks j).locks k).line) (hut : u ≠ t) {rest : List TaskId}
    (hhead : ((c.tasks i).locks k).line = u :: rest) (hij : i ≤ j) (hleft : u ∉ ((c.tasks j).locks k).line) :
    ((c.tasks j).locks k).line.idxOf t < ((c.tasks i).locks k).line.idxOf t := by
  have hle := idxOf_le c hin
  -- until then it is ahead
  have hahead : Onward (fun l => ((∃ rest, ((c.tasks l).locks k).line = u :: rest) ∧
      ((c.tasks l).locks k).line.idxOf t ≤ ((c.tasks i).locks k).line.idxOf t) ∨
      ((c.tasks l).locks k).line.idxOf t < ((c.tasks i).locks k).line.idxOf t) i := by
    refine onward_of_step ?_ ?_
    · exact .inl ⟨⟨rest, hhead⟩, le_refl _⟩
    · rintro l hl (⟨⟨rest, hrest⟩, hidx⟩ | hlt)
      · obtain h | ⟨v, h⟩ | ⟨v, -, h⟩ := (c.step l).line k
        · exact .inl ⟨⟨rest, h.trans hrest⟩, by rw [h]; exact hidx⟩
        · exact .inl ⟨⟨rest ++ [v], by rw [h, hrest]; rfl⟩, (hle l hl).trans hidx⟩
        · have hvt : v ≠ t := by
            rintro rfl
            rw [hrest] at h
            exact hut (List.cons.inj h).1
          rw [h, List.idxOf_cons_ne _ hvt] at hidx
          right
          omega
      · exact .inr (lt_of_le_of_lt (hle l hl) hlt)
  obtain ⟨⟨rest, hrest⟩, -⟩ | hlt := hahead j hij
  · rw [hrest] at hleft
    exact absurd List.mem_cons_self hleft
  · exact hlt

/-- Everybody in line gets the lock. -/
theorem later_holder
    (hruns : ∀ u j, ((c.tasks j).locks k).holder = some u → Later (fun j => c.turn j = some u) j)
    (hpc : (c.tasks i).pcs[t]? = some pc) (hk : k ∈ D.region pc) :
    Later (fun j => ((c.tasks j).locks k).holder = some t ∨ c.turn j = some t) i := by
  by_contra hnever
  have hidle : Onward (fun j => c.turn j ≠ some t) i := fun j hj hturn => hnever ⟨j, hj, .inr hturn⟩
  have hin : ∀ j, i ≤ j → t ∈ ((c.tasks j).locks k).line := fun j hj =>
    ((c.lined_at j).mem k t).mpr ⟨pc, pcs_onward hidle hpc j hj, hk⟩
  have hfalse : Later (fun _ => False) i := by
    apply later_of_measure (fun j => ((c.tasks j).locks k).line.idxOf t)
    intro j hj _
    -- somebody else gets the lock, and leaves
    obtain ⟨m, hm, hwoken⟩ := c.wakes k j
    obtain ⟨u, hhold⟩ : ∃ u, ((c.tasks m).locks k).holder = some u := by
      apply Option.ne_none_iff_exists'.mp
      obtain hhold | hnone := hwoken
      · exact hhold
      · intro hfree
        have ht := hin m (hj.trans hm)
        simp [Mutex.line, hfree, hnone] at ht
    have hut : u ≠ t := by
      rintro rfl
      exact hnever ⟨m, hj.trans hm, .inl hhold⟩
    obtain ⟨n, hn, hleft⟩ := later_left (fun l _ => hruns u l) hhold
    have hlt := idxOf_lt (fun l hl => hin l (hj.trans (hm.trans hl))) hut (Mutex.head_of_holder hhold) hn hleft
    have hmono : Onward (fun l => ((c.tasks l).locks k).line.idxOf t ≤ ((c.tasks j).locks k).line.idxOf t) j :=
      onward_of_step (le_refl _) (fun l hl h => (idxOf_le c hin l (hj.trans hl)).trans h)
    exact ⟨n, hm.trans hn, .inr (lt_of_lt_of_le hlt (hmono m hm))⟩
  obtain ⟨-, -, h⟩ := hfalse
  exact h

/-- By the rank of the locks: nobody in line waits for ever. -/
theorem later_holder_of_rank (c : D.Schedule) (n : Nat) : ∀ k, D.rank k = n → ∀ t i pc, (c.tasks i).pcs[t]? = some pc →
    k ∈ D.region pc → Later (fun j => ((c.tasks j).locks k).holder = some t ∨ c.turn j = some t) i := by
  induction n using Nat.strong_induction_on with
  | _ n ih =>
    intro k hn t i pc hpc hk
    apply later_holder _ hpc hk
    intro u j hhold
    apply later_turn_of_holder _ hhold
    intro k' t' i' pc' hlt
    exact ih (D.rank k') (hn ▸ hlt) k' rfl t' i' pc'

/-- Every task that has not ended runs sooner or later. -/
theorem later_turn (c : D.Schedule) (hpc : (c.tasks i).pcs[t]? = some pc) (hended : ¬ D.ended pc) :
    Later (fun j => c.turn j = some t) i :=
  later_turn_of_holds hpc hended (fun k hk => later_holder_of_rank c (D.rank k) k rfl t i pc hpc hk)

/-- Where it runs next. -/
theorem first_turn (c : D.Schedule) (hpc : (c.tasks i).pcs[t]? = some pc) (hended : ¬ D.ended pc) :
    ∃ j, i ≤ j ∧ c.turn j = some t ∧ (c.tasks j).pcs[t]? = some pc := by
  obtain ⟨j, hj, hturn, hfirst⟩ := (later_turn c hpc hended).first
  exact ⟨j, hj, hturn, pcs_until hj hfirst hpc⟩

/-- A quantity that never grows, and shrinks with every step of a busy task, is
the same from some position on, with nobody busy. -/
theorem later_idle (c : D.Schedule) (μ : Nat → Nat) (busy : Pc → Prop) (hbusy : ∀ pc, busy pc → ¬ D.ended pc)
    (hmono : Onward (fun j => μ (j + 1) ≤ μ j) i)
    (hdec : ∀ j t pc, i ≤ j → c.turn j = some t → (c.tasks j).pcs[t]? = some pc → busy pc → μ (j + 1) < μ j) :
    Later (fun j => Onward (fun k => μ k = μ j ∧ ∀ pc ∈ (c.tasks k).pcs, ¬ busy pc) j) i := by
  obtain ⟨j, hj, hconst⟩ := later_constant μ hmono
  refine ⟨j, hj, fun k hk => ⟨hconst k hk, fun pc hpc hb => ?_⟩⟩
  obtain ⟨t, ht⟩ := List.getElem?_of_mem hpc
  obtain ⟨m, hm, hturn, hpcm⟩ := first_turn c ht (hbusy pc hb)
  have hlt := hdec m t pc (hj.trans (hk.trans hm)) hturn hpcm hb
  rw [hconst m (hk.trans hm), hconst (m + 1) (hk.trans (hm.trans (Nat.le_succ m)))] at hlt
  exact lt_irrefl _ hlt

end Schedule

end Protocol

end Monitor
