import Linksurf.Accounting

/-!
# Buckets a worker relies on

Between the two queries of an enqueue and the payloads it puts, a bucket a worker
no longer admits from may still get work. A worker relies on a bucket while it
admits from it, has a payload of it, or an enqueue in progress may still put one.
By itself an event loop comes to rely on no further bucket, and on none that it
reports as drained.
-/
namespace Linksurf

open Monitor

section

variable (lib : Externals)

/-- A document as the Frontier stores it, whose address parses to its domain. -/
structure UrlModel.Registered (u : UrlModel) : Prop where
  bucket : u.bucket = lib.bucketize u.domain
  domain : ∀ url, lib.url u.address = some url → url.domain = u.domain

/-- Every document of a query's reply. -/
def Reply.Registered : Reply → Prop
  | .urls snapshot => ∀ u ∈ snapshot, u.Registered lib
  | _ => True

/-- The documents of an enqueue in progress put a payload of the bucket. -/
def Admits (urls : List UrlModel) (bucket : Nat) : Prop :=
  ∃ u ∈ urls, ∃ url, lib.url u.address = some url ∧ lib.bucketize url.domain = bucket

/-- The task has a payload of the bucket or may still put one. -/
def Pc.Concerns (pc : Pc) (bucket : Nat) : Prop :=
  match pc with
  | .distinctDomains _ _ fetchable => bucket ∈ fetchable
  | .domainUrls _ domain => lib.bucketize domain = bucket
  | .putting _ urls => Admits lib urls bucket
  | .domainReleaseTime _ _ urls => Admits lib urls bucket
  | pc => ∃ p, pc.payload? = some p ∧ p.inBucket lib bucket = true

/-- A payload of the bucket is queued or in flight. -/
def Node.Works (n : Node) (bucket : Nat) : Prop := n.queue.Queued lib bucket ∨ n.outstanding lib bucket ≠ 0

def Node.Relies (n : Node) (bucket : Nat) : Prop :=
  bucket ∈ n.queue.fetchableBuckets ∨ n.queue.Queued lib bucket ∨ ∃ pc ∈ n.tasks.pcs, pc.Concerns lib bucket

end

variable {lib : Externals} {locked : LockId → Bool} {now : Time} {q : BackQueue} {pc : Pc}
  {reply : Reply} {a : Advance} {n n' : Node} {b : Nat}

theorem concerns_of_payload {p : Payload} (h : pc.payload? = some p) (hb : p.inBucket lib b = true) :
    pc.Concerns lib b := by
  cases pc <;> first | exact ⟨p, h, hb⟩ | cases h

/-- Outside the general lock only payloads matter. -/
theorem concerns_outside (h : pc.Concerns lib b) (hout : LockName.general ∉ pc.inside) :
    ∃ p, pc.payload? = some p ∧ p.inBucket lib b = true := by
  cases pc with
  | distinctDomains | domainUrls | putting | domainReleaseTime => exact absurd List.mem_cons_self hout
  | _ => exact h

theorem not_concerns_of_idle (h : pc.idle) : ¬ pc.Concerns lib b := by
  intro hc
  obtain ⟨p, hp, -⟩ := concerns_outside hc (by rw [Pc.idle_inside h]; exact List.not_mem_nil)
  rw [Pc.idle_payload h] at hp
  cases hp

theorem outstanding_ne_zero : n.outstanding lib b ≠ 0 ↔
    ∃ pc ∈ n.tasks.pcs, ∃ p, pc.payload? = some p ∧ p.inBucket lib b = true := by
  rw [Node.outstanding, ← Nat.pos_iff_ne_zero, List.countP_pos_iff]
  simp only [Option.any_eq_true]

/-- What a worker has work for it relies on. -/
theorem Node.Works.relies (h : n.Works lib b) : n.Relies lib b := by
  rcases h with hq | ho
  · exact .inr (.inl hq)
  · obtain ⟨pc, hpc, p, hp, hb⟩ := outstanding_ne_zero.mp ho
    exact .inr (.inr ⟨pc, hpc, concerns_of_payload hp hb⟩)

/-- Nothing is queued and no task is left. -/
def Node.Vacant (n : Node) : Prop := n.queue.queues.entries = [] ∧ n.tasks.pcs = []

theorem Node.Vacant.no_work (h : n.Vacant) (b : Nat) : ¬ n.Works lib b := by
  rintro (⟨e, he, -⟩ | ho)
  · rw [h.1] at he
    cases he
  · obtain ⟨pc, hpc, -⟩ := outstanding_ne_zero.mp ho
    rw [h.2] at hpc
    cases hpc

/-! ## Steps of the event loop -/

theorem effect_fetchable (h : Effect lib locked now q pc reply a) : a.queue.fetchableBuckets = q.fetchableBuckets := by
  cases h with
  | put =>
    unfold BackQueue.put
    dsimp only
    split <;> rfl
  | _ => rfl

theorem effect_queued (h : Effect lib locked now q pc reply a) (hq : a.queue.Queued lib b) :
    q.Queued lib b ∨ pc.Concerns lib b := by
  obtain ⟨e, he, p, hp, hb⟩ := hq
  cases h with
  | put hurl _ =>
    rcases mem_put he with he | ⟨-, hall⟩
    · exact .inl ⟨e, he, p, hp, hb⟩
    · rcases hall p hp with rfl | ⟨old, hold, hin⟩
      · exact .inr ⟨_, List.mem_cons_self, _, hurl, by simpa [Payload.inBucket] using hb⟩
      · exact .inl ⟨_, hold, p, hin, hb⟩
  | take hscan =>
    rcases mem_take he with he | rfl
    · exact .inl ⟨e, he, p, hp, hb⟩
    · exact .inl ⟨_, (scan_found hscan).1, p, List.mem_cons_of_mem _ hp, hb⟩
  | removeDomain => exact .inl ⟨e, List.mem_of_mem_filter he, p, hp, hb⟩
  | _ => exact .inl ⟨e, he, p, hp, hb⟩

/-- A query finds domains of the buckets it is asked about. -/
theorem bucket_of_chosen {snapshot : List UrlModel} (hreg : ∀ u ∈ snapshot, u.Registered lib)
    {excluded : List String} {fetchable : List Nat} {limit : Nat} {domain : String}
    (h : domain ∈ getDistinctDomains snapshot excluded fetchable limit) : lib.bucketize domain ∈ fetchable := by
  obtain ⟨-, u, hu, rfl, hb⟩ := mem_getDistinctDomains h
  rwa [← (hreg u hu).bucket]

/-- The documents of a domain put payloads of its bucket only. -/
theorem bucket_of_listed {snapshot : List UrlModel} (hreg : ∀ u ∈ snapshot, u.Registered lib) {domain : String}
    {limit : Nat} (h : Admits lib (getDomainUrls snapshot domain limit) b) : lib.bucketize domain = b := by
  obtain ⟨u, hu, url, hurl, hb⟩ := h
  obtain ⟨hin, rfl, -⟩ := mem_getDomainUrls hu
  rwa [← (hreg u hin).domain url hurl]

theorem effect_concerns (h : Effect lib locked now q pc reply a) (hreg : reply.Registered lib)
    (ha : a.pc.Concerns lib b) : b ∈ q.fetchableBuckets ∨ q.Queued lib b ∨ pc.Concerns lib b := by
  cases h with
  | idle _ h' => exact absurd ha (not_concerns_of_idle h')
  | leave _ h' => exact absurd ha (not_concerns_of_idle h')
  | fetchable => exact .inl ha
  | chosen h =>
    obtain rfl : lib.bucketize _ = b := ha
    exact .inr (.inr (bucket_of_chosen hreg h))
  | listed => exact .inr (.inr (bucket_of_listed hreg ha))
  | put _ hpc =>
    subst hpc
    rename_i urls _ _
    have hrest : Admits lib urls b := by
      dsimp only at ha
      split at ha <;> exact ha
    obtain ⟨u, hu, hadmit⟩ := hrest
    exact .inr (.inr ⟨u, List.mem_cons_of_mem _ hu, hadmit⟩)
  | lookedUp => exact .inr (.inr ha)
  | take hscan =>
    obtain ⟨p, hp, hb⟩ := ha
    obtain rfl := Option.some.inj hp
    exact .inr (.inl ⟨_, (scan_found hscan).1, _, List.mem_cons_self, hb⟩)
  | stored | abandoned | queued | fetch | fetched | report => exact .inr (.inr ha)
  | _ =>
    obtain ⟨p, hp, -⟩ := ha
    cases hp

theorem relies_ran {task : TaskId} (h : Ran lib n task reply pc a n') (hreg : reply.Registered lib)
    (hr : n'.Relies lib b) : n.Relies lib b := by
  have hmem := List.mem_of_getElem? h.at_pc
  rcases hr with hf | hq | ⟨p, hp, hc⟩
  · rw [h.queue, effect_fetchable h.effect] at hf
    exact .inl hf
  · rw [h.queue] at hq
    exact (effect_queued h.effect hq).elim (fun hq => .inr (.inl hq)) (fun hc => .inr (.inr ⟨pc, hmem, hc⟩))
  · obtain rfl | hp | ⟨d, rfl⟩ := h.mem_pcs hp
    · rcases effect_concerns h.effect hreg hc with hf | hq | hc
      · exact .inl hf
      · exact .inr (.inl hq)
      · exact .inr (.inr ⟨pc, hmem, hc⟩)
    · exact .inr (.inr ⟨p, hp, hc⟩)
    · obtain ⟨x, hx, -⟩ := hc
      cases hx

/-- Only `set_buckets` makes a worker rely on another bucket. -/
theorem relies_step {action : Action} (hstep : n.step lib action = some n')
    (hnot : ∀ assignments, action ≠ .setBuckets assignments)
    (hreg : ∀ task reply, action = .run task reply → reply.Registered lib) (h : n'.Relies lib b) :
    n.Relies lib b := by
  have hspawn : ∀ {new : Pc}, new.payload? = none → LockName.general ∉ new.inside →
      Node.Relies lib { n with tasks := n.tasks.spawn [new] } b → n.Relies lib b := by
    rintro new hpay hout (hf | hq | ⟨p, hp, hc⟩)
    · exact .inl hf
    · exact .inr (.inl hq)
    · rcases List.mem_append.mp hp with hp | hp
      · exact .inr (.inr ⟨p, hp, hc⟩)
      · obtain rfl := List.mem_singleton.mp hp
        obtain ⟨x, hx, -⟩ := concerns_outside hc hout
        rw [hpay] at hx
        cases hx
  cases action with
  | setBuckets assignments => exact absurd rfl (hnot assignments)
  | run task reply =>
    obtain ⟨pc, a, hran⟩ := runTask_ran hstep
    exact relies_ran hran (hreg task reply rfl) h
  | tick now =>
    simp only [Node.step] at hstep
    split at hstep <;> cases hstep
    exact h
  | waitForDrain timeout =>
    simp only [Node.step] at hstep
    split at hstep <;> cases hstep
    exact hspawn rfl (by simp [Pc.inside]) h
  | loop => cases hstep; exact hspawn rfl (by simp [Pc.inside]) h
  | grant | drain | setReady => cases hstep; exact h

theorem relies_setBuckets {assignments : List BucketModel}
    (h : Node.Relies lib { n with queue := n.queue.setBuckets assignments } b) :
    (∃ r ∈ assignments, r.state.held ∧ r.id = b) ∨ n.Relies lib b := by
  rcases h with hf | hq | hc
  · have hb : b ∈ (n.queue.setBuckets assignments).buckets := List.mem_of_mem_filter hf
    rw [BackQueue.setBuckets, List.mem_insertionSort, List.mem_map] at hb
    obtain ⟨r, hr, rfl⟩ := hb
    obtain ⟨hin, hheld⟩ := List.mem_filter.mp hr
    exact .inl ⟨r, hin, by simpa using hheld, rfl⟩
  · exact .inr (.inr (.inl hq))
  · exact .inr (.inr (.inr hc))

/-- A bucket reported as drained is not relied on: enqueues in progress hold the
general lock, and the report takes it. -/
theorem not_relies_of_drained (h : n.Sound lib) (hfree : (n.tasks.locks .general).holder = none)
    (hb : b ∈ n.queue.drainedBuckets lib) : ¬ n.Relies lib b := by
  obtain ⟨hdraining, hwork⟩ := mem_drainedBuckets hb
  obtain ⟨hq, ho⟩ := h.accounted.no_work h.keyed hwork
  rintro (hf | hq' | ⟨pc, hpc, hc⟩)
  · have hnot := List.of_mem_filter hf
    simp [hdraining] at hnot
  · exact hq hq'
  · obtain ⟨t, ht⟩ := List.getElem?_of_mem hpc
    have hout : LockName.general ∉ pc.inside := by
      intro hin
      have hheld := h.disciplined.held t pc ht .general hin
      rw [hfree] at hheld
      cases hheld
    exact (outstanding_ne_zero.mpr ⟨pc, hpc, concerns_outside hc hout⟩) ho

/-! ## What lasts -/

/-- Between two synchronisations an event loop relies on no further bucket. -/
structure Node.Follows (lib : Externals) (n n' : Node) : Prop where
  sound : n.Sound lib → n'.Sound lib
  quiet : n.Quiet → n'.Quiet
  relies : ∀ b, n'.Relies lib b → n.Relies lib b

theorem Node.Follows.refl (n : Node) : n.Follows lib n := ⟨id, id, fun _ => id⟩

theorem follows_step {action : Action} (hstep : n.step lib action = some n')
    (hnot : ∀ assignments, action ≠ .setBuckets assignments)
    (hreg : ∀ task reply, action = .run task reply → reply.Registered lib) : n.Follows lib n' where
  sound h := h.step (step_stepped hstep)
  quiet h := h.step (step_stepped hstep)
  relies _ := relies_step hstep hnot hreg

theorem follows_drain (lib : Externals) (n : Node) : n.Follows lib { n with queue := { n.queue with draining := true } } :=
  @follows_step lib _ _ .drain rfl (by simp) (by simp)

/-- The clock may be set. -/
theorem follows_now (n : Node) (now : Time) : n.Follows lib { n with now } where
  sound h := ⟨⟨h.disciplined.lined, h.disciplined.held⟩, h.keyed, h.accounted,
    ⟨h.drainOrder.draining, h.drainOrder.inOrder⟩, fun hd => by
      have hq := h.drained hd
      exact ⟨hq.draining, hq.queues, hq.payloads, hq.enqueues⟩⟩
  quiet h := ⟨h.draining, h.queues, h.payloads, h.enqueues⟩
  relies _ := id

end Linksurf
