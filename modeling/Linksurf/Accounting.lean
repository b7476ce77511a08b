import Linksurf.Effects

/-!
# Drain accounting

The in-flight counters are the payloads `next` returned and `complete` has not
seen, so a bucket or a queue reported without work has none. Enqueues that passed
the draining check before `drain` are ahead of `wait_for_drain` in the line of
the general lock, hence a finished drain is final.
-/
namespace Linksurf

open Monitor Execution

section

variable (lib : Externals)

/-- The payload belongs to the bucket. -/
def Payload.inBucket (p : Payload) (bucket : Nat) : Bool := lib.bucketize p.url.domain = bucket

/-- The payloads of a bucket that `next` returned and `complete` has not seen. -/
def Node.outstanding (n : Node) (bucket : Nat) : Nat :=
  n.tasks.pcs.countP (fun pc => pc.payload?.any (fun p => p.inBucket lib bucket))

/-- A payload of the bucket is queued. -/
def BackQueue.Queued (q : BackQueue) (bucket : Nat) : Prop :=
  ∃ e ∈ q.queues.entries, ∃ p ∈ e.2, p.inBucket lib bucket = true

end

variable {lib : Externals} {locked : LockId → Bool} {now : Time} {q : BackQueue} {pc : Pc}
  {reply : Reply} {a : Advance} {n n' : Node}

/-! ## Payloads sit in the queue of their domain -/

def BackQueue.Keyed (q : BackQueue) : Prop := ∀ e ∈ q.queues.entries, ∀ p ∈ e.2, p.url.domain = e.1

theorem scanEntries_found {entries : List (String × List Payload)} {domain : String} {payload : Payload}
    {rest : List Payload} {lock : LockId}
    (h : q.scanEntries now locked entries = .found domain payload rest lock) :
    (domain, payload :: rest) ∈ entries ∧ (∃ t, q.releaseTimes.get? domain = some t ∧ t ≤ now) ∧
      q.locks.get? domain = some lock ∧ locked lock = false := by
  induction entries with
  | nil => cases h
  | cons e entries ih =>
    obtain ⟨d, queue⟩ := e
    rw [BackQueue.scanEntries] at h
    split at h
    · rename_i time l htime hlock
      split at h
      · exact (ih h).imp_left (List.mem_cons_of_mem _)
      · split at h
        · rename_i hok
          cases h
          exact ⟨List.mem_cons_self, ⟨time, htime, hok.1⟩, hlock, by simpa using hok.2⟩
        · exact (ih h).imp_left (List.mem_cons_of_mem _)
    · cases h

/-- What `next` found: the head of a queue whose release time has come and whose
lock nobody holds. -/
theorem scan_found {domain : String} {payload : Payload} {rest : List Payload} {lock : LockId}
    (h : q.scan now locked = .found domain payload rest lock) :
    (domain, payload :: rest) ∈ q.queues.entries ∧ (∃ t, q.releaseTimes.get? domain = some t ∧ t ≤ now) ∧
      q.locks.get? domain = some lock ∧ locked lock = false := scanEntries_found h

@[simp] theorem put_queues (q : BackQueue) (p : Payload) : (q.put p).queues =
    q.queues.set p.url.domain ((q.queues.get? p.url.domain).getD [] ++ [p]) := by
  unfold BackQueue.put
  dsimp only
  split <;> rfl

@[simp] theorem put_inFlightBuckets (q : BackQueue) (p : Payload) :
    (q.put p).inFlightBuckets = q.inFlightBuckets := by
  unfold BackQueue.put
  dsimp only
  split <;> rfl

@[simp] theorem put_draining (q : BackQueue) (p : Payload) : (q.put p).draining = q.draining := by
  unfold BackQueue.put
  dsimp only
  split <;> rfl

@[simp] theorem put_releaseTimes (q : BackQueue) (p : Payload) : (q.put p).releaseTimes = q.releaseTimes := by
  unfold BackQueue.put
  dsimp only
  split <;> rfl

theorem mem_put {p : Payload} {e : String × List Payload} (h : e ∈ (q.put p).queues.entries) :
    e ∈ q.queues.entries ∨
      (e.1 = p.url.domain ∧ ∀ x ∈ e.2, x = p ∨ ∃ old, (e.1, old) ∈ q.queues.entries ∧ x ∈ old) := by
  rw [put_queues] at h
  rcases Dicts.Dict.mem_set.mp h with ⟨h₁, h₂⟩ | ⟨-, h⟩
  · refine .inr ⟨h₁, fun x hx => ?_⟩
    rw [h₂] at hx
    rcases List.mem_append.mp hx with hx | hx
    · cases hold : q.queues.get? p.url.domain with
      | none => simp [hold] at hx
      | some old =>
        rw [hold] at hx
        exact .inr ⟨old, h₁ ▸ Dicts.Dict.get?_eq_some_iff.mp hold, hx⟩
    · exact .inl (List.mem_singleton.mp hx)
  · exact .inl h

theorem mem_take {domain : String} {rest : List Payload} {e : String × List Payload}
    (he : e ∈ (q.take lib now domain rest).queues.entries) :
    e ∈ q.queues.entries ∨ e = (domain, rest) := by
  rcases Dicts.Dict.mem_set.mp he with ⟨h₁, h₂⟩ | ⟨-, he⟩
  · exact .inr (Prod.ext h₁ h₂)
  · exact .inl he

theorem BackQueue.Keyed.effect (hk : q.Keyed) (h : Effect lib locked now q pc reply a) : a.queue.Keyed := by
  cases h with
  | put hurl _ =>
    intro e he x hx
    rcases mem_put he with he | ⟨hdom, hall⟩
    · exact hk e he x hx
    · rcases hall x hx with rfl | ⟨old, hold, hx⟩
      · exact hdom.symm
      · exact hk _ hold x hx
  | take hscan =>
    intro e he x hx
    rcases mem_take he with he | rfl
    · exact hk e he x hx
    · exact hk _ (scan_found hscan).1 x (List.mem_cons_of_mem _ hx)
  | removeDomain =>
    intro e he x hx
    exact hk e (List.mem_of_mem_filter he) x hx
  | _ => exact hk

/-! ## Counting payloads -/

/-- The steps that move payloads between the queue, a task and `complete`. -/
theorem effect_payload (h : Effect lib locked now q pc reply a) :
    (a.pc.payload? = pc.payload? ∧ a.queue.inFlightBuckets = q.inFlightBuckets) ∨
    (∃ domain payload rest lock, q.scan now locked = .found domain payload rest lock ∧
      pc.payload? = none ∧ a.pc.payload? = some payload ∧ a.queue = q.take lib now domain rest) ∨
    (∃ payload, pc.payload? = some payload ∧ a.pc.payload? = none ∧ a.queue = q.complete lib payload) := by
  cases h with
  | idle h h' => exact .inl ⟨by rw [Pc.idle_payload h, Pc.idle_payload h'], rfl⟩
  | enter _ h _ _ => exact .inl ⟨by rw [Pc.idle_payload h]; rfl, rfl⟩
  | leave h h' => exact .inl ⟨by rw [Pc.enqueuing_payload h, Pc.idle_payload h'], rfl⟩
  | put _ hpc => subst hpc; exact .inl ⟨by dsimp only; split <;> rfl, put_inFlightBuckets _ _⟩
  | take hscan => exact .inr (.inl ⟨_, _, _, _, hscan, rfl, rfl, rfl⟩)
  | complete => exact .inr (.inr ⟨_, rfl, rfl, rfl⟩)
  | _ => exact .inl ⟨rfl, rfl⟩

/-- No entry is zero, and each counts the outstanding payloads of its bucket. -/
def Node.Accounted (lib : Externals) (n : Node) : Prop :=
  ∀ b, n.queue.inFlightBuckets.get? b = if n.outstanding lib b = 0 then none else some (n.outstanding lib b)

theorem Node.Accounted.inFlight (h : n.Accounted lib) (b : Nat) : n.queue.inFlight b = n.outstanding lib b := by
  rw [BackQueue.inFlight, h b]
  split <;> simp_all

theorem outstanding_ran {task : TaskId} (h : Ran lib n task reply pc a n') (b : Nat) :
    n'.outstanding lib b + (if pc.payload?.any (fun p => p.inBucket lib b) then 1 else 0) =
      n.outstanding lib b + if a.pc.payload?.any (fun p => p.inBucket lib b) then 1 else 0 :=
  h.countP (fun pc => pc.payload?.any (fun p : Payload => p.inBucket lib b)) (fun _ => rfl)

theorem outstanding_spawn {new : List Pc} (hnew : ∀ p ∈ new, p.payload? = none) (b : Nat) :
    Node.outstanding lib { n with tasks := n.tasks.spawn new } b = n.outstanding lib b := by
  have hzero : new.countP (fun pc => pc.payload?.any (fun p => p.inBucket lib b)) = 0 := by
    rw [List.countP_eq_zero]
    intro p hp
    simp [hnew p hp]
  unfold Node.outstanding
  change List.countP _ (_ ++ new) = _
  rw [List.countP_append, hzero, Nat.add_zero]

theorem accounted_take (h : n.Accounted lib) {payload : Payload} {domain : String} {rest : List Payload}
    (hdomain : payload.url.domain = domain)
    (hout : ∀ b, n'.outstanding lib b = n.outstanding lib b + if payload.inBucket lib b then 1 else 0)
    (hq : n'.queue.inFlightBuckets = (n.queue.take lib now domain rest).inFlightBuckets) :
    n'.Accounted lib := by
  intro b
  rw [hq, hout]
  change Dicts.Dict.get? (Dicts.Dict.set _ _ _) b = _
  subst hdomain
  rw [Dicts.Dict.get?_set, h.inFlight]
  by_cases hb : b = lib.bucketize payload.url.domain
  · subst hb; simp [Payload.inBucket]
  · have hne : payload.inBucket lib b = false := by simpa [Payload.inBucket] using Ne.symm hb
    simp [hb, hne, h b]

theorem accounted_complete (h : n.Accounted lib) {payload : Payload}
    (hout : ∀ b, n'.outstanding lib b + (if payload.inBucket lib b then 1 else 0) = n.outstanding lib b)
    (hq : n'.queue.inFlightBuckets = (n.queue.complete lib payload).inFlightBuckets) :
    n'.Accounted lib := by
  intro b
  have hb := hout b
  have hself := hout (lib.bucketize payload.url.domain)
  simp only [Payload.inBucket, decide_true, if_true] at hself
  rw [hq]
  change Dicts.Dict.get? (if _ then _ else _) b = _
  rw [h.inFlight]
  by_cases he : b = lib.bucketize payload.url.domain
  · subst he
    split <;> rename_i hle
    · rw [Dicts.Dict.get?_erase_same, if_pos (by omega)]
    · rw [Dicts.Dict.get?_set_same, if_neg (by omega)]
      congr 1
      omega
  · have hne : payload.inBucket lib b = false := by simpa [Payload.inBucket] using Ne.symm he
    have hsame : n'.outstanding lib b = n.outstanding lib b := by simpa [hne] using hb
    rw [hsame]
    split
    · rw [Dicts.Dict.get?_erase_other _ he, h b]
    · rw [Dicts.Dict.get?_set_other _ he, h b]

theorem Node.Accounted.step (h : n.Accounted lib) (hk : n.queue.Keyed) (hstep : Stepped lib n n') :
    n'.Accounted lib := by
  cases hstep with
  | ran hran =>
    have hout := outstanding_ran hran
    rcases effect_payload hran.effect with ⟨hpay, hfl⟩ | ⟨d, p, rest, l, hscan, hnone, hsome, hq⟩ | ⟨p, hsome, hnone, hq⟩
    · intro b
      have hb := hout b
      rw [hpay] at hb
      rw [hran.queue, hfl, h b, Nat.add_right_cancel hb]
    · refine accounted_take h (hk _ (scan_found hscan).1 p List.mem_cons_self) (fun b => ?_)
        (by rw [hran.queue, hq])
      simpa [hnone, hsome] using hout b
    · refine accounted_complete h (fun b => ?_) (by rw [hran.queue, hq])
      simpa [hnone, hsome] using hout b
  | outside hq htasks _ =>
    intro b
    have hout : n'.outstanding lib b = n.outstanding lib b := by unfold Node.outstanding; rw [htasks]
    rw [hq.inFlightBuckets, hout, h b]
  | granted lock he => subst he; exact h
  | looped he =>
    subst he
    intro b
    rw [outstanding_spawn (by simp [Pc.payload?])]
    exact h b
  | waiting _ _ he =>
    subst he
    intro b
    rw [outstanding_spawn (by simp [Pc.payload?])]
    exact h b

/-! ## Drained buckets -/

theorem bucketHasWork_of_queued (hk : q.Keyed) {b : Nat} (h : q.Queued lib b) : q.bucketHasWork lib b = true := by
  obtain ⟨e, he, p, hp, hb⟩ := h
  have hdomain := hk e he p hp
  simp only [Payload.inBucket, decide_eq_true_eq] at hb
  rw [BackQueue.bucketHasWork, Bool.or_eq_true]
  refine .inr (List.any_eq_true.mpr ⟨e, he, ?_⟩)
  have hne : e.2 ≠ [] := by intro h; rw [h] at hp; cases hp
  simp [← hdomain, hb, hne]

/-- A bucket without reported work has nothing queued and nothing outstanding. -/
theorem Node.Accounted.no_work (h : n.Accounted lib) (hk : n.queue.Keyed) {b : Nat}
    (hb : n.queue.bucketHasWork lib b = false) : ¬ n.queue.Queued lib b ∧ n.outstanding lib b = 0 := by
  refine ⟨fun hq => ?_, ?_⟩
  · rw [bucketHasWork_of_queued hk hq] at hb
    cases hb
  · rw [BackQueue.bucketHasWork, Bool.or_eq_false_iff, h.inFlight] at hb
    simpa using hb.1

theorem mem_drainedBuckets {b : Nat} (h : b ∈ q.drainedBuckets lib) :
    b ∈ q.drainingBuckets ∧ q.bucketHasWork lib b = false := by
  rw [BackQueue.drainedBuckets, List.mem_insertionSort] at h
  simpa using h

/-! ## The order in the line of the general lock -/

def Pc.AfterDrain : Pc → Prop
  | .waitForDrain _ | .waitLocked _ | .waitSleeping _ | .drained | .timedOut => True
  | _ => False

/-- `wait_for_drain` is only called after `drain`, and nobody in line for its
check is ahead of an enqueue. -/
structure Node.DrainOrder (n : Node) : Prop where
  draining : ∀ pc ∈ n.tasks.pcs, pc.AfterDrain → n.queue.draining = true
  inOrder : n.tasks.InOrder (fun pc => pc.enqueuing = true) (fun pc => pc.checkingDrain = true) .general

theorem Node.initial_drainOrder : Node.initial.DrainOrder where
  draining := by intro pc h; cases h
  inOrder := Tasks.empty_inOrder

theorem effect_draining (h : Effect lib locked now q pc reply a) : a.queue.draining = q.draining := by
  cases h with
  | put => exact put_draining _ _
  | _ => rfl

theorem Pc.idle_not_afterDrain (h : pc.idle) : ¬ pc.AfterDrain := by
  cases pc <;> simp_all [Pc.idle, Pc.AfterDrain]

theorem effect_afterDrain (h : Effect lib locked now q pc reply a) (ha : a.pc.AfterDrain) : pc.AfterDrain := by
  cases h with
  | idle _ h' => exact absurd ha (Pc.idle_not_afterDrain h')
  | leave _ h' => exact absurd ha (Pc.idle_not_afterDrain h')
  | put _ hpc => subst hpc; dsimp only at ha; split at ha <;> cases ha
  | _ => first | exact trivial | cases ha

theorem Pc.checkingDrain_afterDrain (h : pc.checkingDrain = true) : pc.AfterDrain := by
  cases pc <;> simp_all [Pc.checkingDrain, Pc.AfterDrain]

theorem Pc.idle_not_enqueuing (h : pc.idle) : pc.enqueuing = false := by
  cases pc <;> simp_all [Pc.idle, Pc.enqueuing]

theorem Pc.idle_not_checkingDrain (h : pc.idle) : pc.checkingDrain = false := by
  cases pc <;> simp_all [Pc.idle, Pc.checkingDrain]

/-- Admission is only entered before `drain`, from outside the general lock. -/
theorem effect_enqueuing (h : Effect lib locked now q pc reply a) (ha : a.pc.enqueuing) :
    pc.enqueuing ∨ (q.draining = false ∧ LockName.general ∉ pc.region) := by
  cases h with
  | idle _ h' => rw [Pc.idle_not_enqueuing h'] at ha; cases ha
  | enter _ _ hout hopen => exact .inr ⟨hopen, by simp [hout]⟩
  | leave h _ => exact .inl h
  | _ => first | exact .inl rfl | cases ha

theorem effect_checkingDrain (h : Effect lib locked now q pc reply a) (ha : a.pc.checkingDrain) :
    LockName.general ∉ pc.region := by
  cases h with
  | idle _ h' => rw [Pc.idle_not_checkingDrain h'] at ha; cases ha
  | leave _ h' => rw [Pc.idle_not_checkingDrain h'] at ha; cases ha
  | put _ hpc => subst hpc; dsimp only at ha; split at ha <;> cases ha
  | waitForDrain => simp [Pc.region]
  | _ => cases ha

theorem Node.DrainOrder.step (h : n.DrainOrder) (hd : n.Disciplined) (hstep : Stepped lib n n') :
    n'.DrainOrder := by
  cases hstep with
  | ran hran =>
    rename_i task reply pc a
    have hmem := List.mem_of_getElem? hran.at_pc
    constructor
    · intro p hp hafter
      rw [hran.queue, effect_draining hran.effect]
      obtain rfl | hp | ⟨d, rfl⟩ := hran.mem_pcs hp
      · exact h.draining pc hmem (effect_afterDrain hran.effect hafter)
      · exact h.draining p hp hafter
      · cases hafter
    · rw [hran.tasks]
      refine (h.inOrder.move hd.lined hran.at_pc hran.entitled ?_ ?_).spawn
        (hd.lined.move hran.at_pc hran.entitled)
      · intro hk _
        refine ⟨fun hlate => absurd hk (effect_checkingDrain hran.effect hlate), fun hearly => ?_⟩
        exact (effect_enqueuing hran.effect hearly).resolve_right (fun hout => hout.2 hk)
      · intro hk _ hearly u p hp hlate
        have hdr := h.draining p (List.mem_of_getElem? hp) (Pc.checkingDrain_afterDrain hlate)
        rcases effect_enqueuing hran.effect hearly with he | ⟨hopen, -⟩
        · exact hk (Pc.enqueuing_region he)
        · rw [hopen] at hdr; cases hdr
  | outside hq htasks _ =>
    exact ⟨fun p hp ha => hq.draining (h.draining p (htasks ▸ hp) ha), htasks ▸ h.inOrder⟩
  | granted lock he => subst he; exact ⟨h.draining, h.inOrder.grant⟩
  | looped he =>
    subst he
    refine ⟨fun p hp ha => ?_, h.inOrder.spawn hd.lined⟩
    rcases List.mem_append.mp hp with hp | hp
    · exact h.draining p hp ha
    · rw [List.mem_singleton.mp hp] at ha
      cases ha
  | waiting _ hdr he =>
    subst he
    exact ⟨fun _ _ _ => hdr, h.inOrder.spawn hd.lined⟩

/-! ## A finished drain is final -/

/-- Nothing is queued, outstanding or being admitted, and nothing will be. -/
structure Node.Quiet (n : Node) : Prop where
  draining : n.queue.draining = true
  queues : ∀ e ∈ n.queue.queues.entries, e.2 = []
  payloads : ∀ pc ∈ n.tasks.pcs, pc.payload? = none
  enqueues : ∀ pc ∈ n.tasks.pcs, pc.enqueuing = false

theorem Node.Quiet.effect (h : n.Quiet) (hpc : pc ∈ n.tasks.pcs)
    (he : Effect lib locked now n.queue pc reply a) :
    a.pc.payload? = none ∧ a.pc.enqueuing = false ∧ ∀ e ∈ a.queue.queues.entries, e.2 = [] := by
  have hpay := h.payloads pc hpc
  have henq := h.enqueues pc hpc
  cases he with
  | idle _ h' => exact ⟨Pc.idle_payload h', Pc.idle_not_enqueuing h', h.queues⟩
  | enter _ _ _ hopen => rw [h.draining] at hopen; cases hopen
  | leave h _ => rw [h] at henq; cases henq
  | take hscan =>
    have hnil := h.queues _ (scan_found hscan).1
    cases hnil
  | removeDomain => exact ⟨rfl, rfl, fun e he => h.queues e (List.mem_of_mem_filter he)⟩
  | current | fetchable | chosen | listed | put | lookedUp => cases henq
  | stored | abandoned | queued | fetch | fetched | report | complete => cases hpay
  | _ => exact ⟨rfl, rfl, h.queues⟩

theorem Node.Quiet.step (h : n.Quiet) (hstep : Stepped lib n n') : n'.Quiet := by
  cases hstep with
  | ran hran =>
    rename_i task reply pc a
    obtain ⟨hpay, henq, hqueues⟩ := h.effect (List.mem_of_getElem? hran.at_pc) hran.effect
    constructor
    · rw [hran.queue, effect_draining hran.effect]; exact h.draining
    · rw [hran.queue]; exact hqueues
    · intro p hp
      obtain rfl | hp | ⟨d, rfl⟩ := hran.mem_pcs hp
      · exact hpay
      · exact h.payloads p hp
      · rfl
    · intro p hp
      obtain rfl | hp | ⟨d, rfl⟩ := hran.mem_pcs hp
      · exact henq
      · exact h.enqueues p hp
      · rfl
  | outside hq htasks _ =>
    exact ⟨hq.draining h.draining, hq.queues ▸ h.queues, htasks ▸ h.payloads, htasks ▸ h.enqueues⟩
  | granted lock he => subst he; exact ⟨h.draining, h.queues, h.payloads, h.enqueues⟩
  | looped he =>
    subst he
    refine ⟨h.draining, h.queues, fun p hp => ?_, fun p hp => ?_⟩
    · exact (List.mem_append.mp hp).elim (h.payloads p) (fun hp => by rw [List.mem_singleton.mp hp]; rfl)
    · exact (List.mem_append.mp hp).elim (h.enqueues p) (fun hp => by rw [List.mem_singleton.mp hp]; rfl)
  | waiting _ _ he =>
    subst he
    refine ⟨h.draining, h.queues, fun p hp => ?_, fun p hp => ?_⟩
    · exact (List.mem_append.mp hp).elim (h.payloads p) (fun hp => by rw [List.mem_singleton.mp hp]; rfl)
    · exact (List.mem_append.mp hp).elim (h.enqueues p) (fun hp => by rw [List.mem_singleton.mp hp]; rfl)

theorem Node.Quiet.no_work (h : n.Quiet) (b : Nat) : ¬ n.queue.Queued lib b ∧ n.outstanding lib b = 0 := by
  refine ⟨fun ⟨e, he, p, hp, _⟩ => ?_, ?_⟩
  · rw [h.queues e he] at hp
    cases hp
  · rw [Node.outstanding, List.countP_eq_zero]
    intro pc hpc
    simp [h.payloads pc hpc]

/-- The check of `wait_for_drain` succeeds only when the drain is final. -/
theorem quiet_of_no_work (hd : n.Disciplined) (ho : n.DrainOrder) (ha : n.Accounted lib) {task : TaskId}
    {deadline : Time} (hpc : n.tasks.pcs[task]? = some (.waitLocked deadline))
    (he : n.tasks.entitled Pc.region task (.waitLocked deadline) = true)
    (hwork : n.queue.hasLocalWork = false) : n.Quiet := by
  obtain ⟨hflight, hqueues⟩ := Bool.or_eq_false_iff.mp hwork
  have hempty : n.queue.inFlightBuckets.entries = [] := by
    simpa [Dicts.Dict.size] using hflight
  constructor
  · exact ho.draining _ (List.mem_of_getElem? hpc) trivial
  · intro e he
    simpa using List.any_eq_false.mp hqueues e he
  · intro pc hpc
    cases hpay : pc.payload? with
    | none => rfl
    | some p =>
      have hb := ha (lib.bucketize p.url.domain)
      have hnone : n.queue.inFlightBuckets.get? (lib.bucketize p.url.domain) = none := by
        simp [Dicts.Dict.get?, hempty]
      rw [hnone] at hb
      have hzero : n.outstanding lib (lib.bucketize p.url.domain) = 0 := by
        by_contra hne
        rw [if_neg hne] at hb
        cases hb
      have hnot := List.countP_eq_zero.mp hzero pc hpc
      simp [hpay, Payload.inBucket] at hnot
  · intro pc hpc'
    obtain ⟨u, hu⟩ := List.getElem?_of_mem hpc'
    by_cases hut : u = task
    · subst hut
      obtain rfl := Option.some.inj (hu.symm.trans hpc)
      rfl
    · by_contra henq
      have henq' : pc.enqueuing = true := by simpa using henq
      exact ho.inOrder.behind hd.lined hpc (Tasks.holder_of_entitled he (by simp [Pc.region])) rfl hu
        (Pc.enqueuing_region henq') hut henq'

/-- The invariant of one worker's event loop. -/
structure Node.Sound (lib : Externals) (n : Node) : Prop where
  disciplined : n.Disciplined
  keyed : n.queue.Keyed
  accounted : n.Accounted lib
  drainOrder : n.DrainOrder
  drained : .drained ∈ n.tasks.pcs → n.Quiet

theorem Node.initial_sound : Node.initial.Sound lib where
  disciplined := Node.initial_disciplined
  keyed := by intro e he; cases he
  accounted := by intro b; rfl
  drainOrder := Node.initial_drainOrder
  drained := by intro h; cases h

theorem BackQueue.Keyed.step (hk : n.queue.Keyed) (hstep : Stepped lib n n') : n'.queue.Keyed := by
  cases hstep with
  | ran hran => rw [hran.queue]; exact hk.effect hran.effect
  | outside hq _ _ => intro e he; rw [hq.queues] at he; exact hk e he
  | granted lock he => subst he; exact hk
  | looped he => subst he; exact hk
  | waiting _ _ he => subst he; exact hk

theorem effect_drained (h : Effect lib locked now q pc reply a) (ha : a.pc = .drained) :
    (∃ deadline, pc = .waitLocked deadline) ∧ q.hasLocalWork = false := by
  cases h with
  | idle _ h' => dsimp only at ha; subst ha; cases h'
  | leave _ h' => dsimp only at ha; subst ha; cases h'
  | put _ hpc => dsimp only at ha; subst ha; split at hpc <;> cases hpc
  | drained h => exact ⟨⟨_, rfl⟩, h⟩
  | _ => cases ha

theorem Node.Sound.step (h : n.Sound lib) (hstep : Stepped lib n n') : n'.Sound lib where
  disciplined := h.disciplined.step hstep
  keyed := h.keyed.step hstep
  accounted := h.accounted.step h.keyed hstep
  drainOrder := h.drainOrder.step h.disciplined hstep
  drained := by
    intro hdrained
    refine Node.Quiet.step (n := n) ?_ hstep
    cases hstep with
    | ran hran =>
      obtain hp | hp | ⟨d, hd⟩ := hran.mem_pcs hdrained
      · obtain ⟨⟨deadline, rfl⟩, hwork⟩ := effect_drained hran.effect hp.symm
        exact quiet_of_no_work h.disciplined h.drainOrder h.accounted hran.at_pc hran.entitled hwork
      · exact h.drained hp
      · cases hd
    | outside _ htasks _ => exact h.drained (htasks ▸ hdrained)
    | granted lock he => subst he; exact h.drained hdrained
    | looped he =>
      subst he
      exact h.drained ((List.mem_append.mp hdrained).resolve_right (by simp))
    | waiting _ _ he =>
      subst he
      exact h.drained ((List.mem_append.mp hdrained).resolve_right (by simp))

theorem sound_of_reaches {P : Node → Action → Prop} (h : Reaches (Node.step lib) P Node.initial n) :
    n.Sound lib :=
  h.invariant (Node.Sound lib) Node.initial_sound (fun _ _ _ hs _ hstep => hs.step (step_stepped hstep))

/-- The counters are exact, a bucket reported drained has no work, and after a
successful `wait_for_drain` no payload is ever queued or handed out. -/
theorem drain_accounting (lib : Externals) (n : Node) (h : Reaches (Node.step lib) Free Node.initial n) :
    ((n.tasks.locks .general).holder = none →
      (∀ b, n.queue.inFlightBuckets.get? b =
        if n.outstanding lib b = 0 then none else some (n.outstanding lib b)) ∧
      ∀ b ∈ n.queue.drainedBuckets lib, ¬ n.queue.Queued lib b ∧ n.outstanding lib b = 0) ∧
    (.drained ∈ n.tasks.pcs → ∀ n', Reaches (Node.step lib) Free n n' →
      ∀ b, ¬ n'.queue.Queued lib b ∧ n'.outstanding lib b = 0) := by
  have hs := sound_of_reaches h
  refine ⟨fun _ => ⟨hs.accounted, fun b hb => ?_⟩, fun hdrained n' hn' b => ?_⟩
  · exact hs.accounted.no_work hs.keyed (mem_drainedBuckets hb).2
  · have hquiet := hn'.invariant Node.Quiet (hs.drained hdrained)
      (fun _ _ _ hq _ hstep => hq.step (step_stepped hstep))
    exact hquiet.no_work b

/-- A payload is fetched and completed, then the drained queue is found empty. -/
theorem drain_accounting_site : ∃ n, Reaches (Node.step site) Free Node.initial n ∧
    .drained ∈ n.tasks.pcs ∧ ∀ n', Reaches (Node.step site) Free n n' →
      ∀ b, ¬ n'.queue.Queued site b ∧ n'.outstanding site b = 0 := by
  obtain ⟨n, hn, hdrained⟩ := exists_reaches_free (Node.step site) Node.initial
    [.setBuckets [⟨1, .idle, some "a", none, 0⟩], .loop, .run 0 .done, .run 0 .done,
      .run 0 (.domains []), .run 0 (.urls [page1]), .run 0 (.urls [page1]), .run 0 .done,
      .run 0 (.releaseTime none), .run 0 .done, .drain, .run 0 .done, .run 0 .done, .run 0 .done,
      .run 0 .done, .run 0 .done, .run 0 (.fetched .empty), .run 0 .done, .run 0 .done,
      .waitForDrain 10, .run 2 .done, .run 2 .done]
    (fun n => .drained ∈ n.tasks.pcs) (by decide +kernel)
  have hmem : .drained ∈ n.tasks.pcs := by simpa using hdrained
  exact ⟨n, hn, hmem, (drain_accounting site n hn).2 hmem⟩

end Linksurf
