import Linksurf.Domains
import Linksurf.Exclusion
import Linksurf.Store

/-!
# One call of `_enqueue_new_domain`

The call from its draining check on, with the answers to its awaits. What it
queues is one new domain the worker may fetch, and a call that ends in any other
way leaves the queue as it found it. A failed `get_excluded_domains` counts as
an answer without domains.
-/
namespace Linksurf

open Execution
open Dicts (Dict)

/-- The call at an await, or ended: with `True`, or with `False` or an exception. -/
inductive EnqueueCall where
  | running (queue : BackQueue) (pc : Pc)
  | enqueued (queue : BackQueue)
  | refused (queue : BackQueue)

def EnqueueCall.queue : EnqueueCall → BackQueue
  | .running q _ | .enqueued q | .refused q => q

/-- `True`, or `False` for any other end. -/
def EnqueueCall.outcome : EnqueueCall → Option Bool
  | .running _ _ => none
  | .enqueued _ => some true
  | .refused _ => some false

/-- The loop of puts is over; what is left is `return True`. -/
def Pc.allPut : Pc → Bool
  | .putting _ [] => true
  | _ => false

/-- The call goes on to its next await. It looks at no lock. -/
def EnqueueCall.step (lib : Externals) : EnqueueCall → Time × Reply → Option EnqueueCall
  | .running q pc, (now, reply) =>
    (advance lib (fun _ => false) now q pc reply).map (fun a =>
      if a.pc.enqueuing then .running a.queue a.pc
      else if pc.allPut then .enqueued a.queue
      else .refused a.queue)
  | _, _ => none

/-- The state of the domains collection that `get_excluded_domains` reads, when,
and whether the read raises. -/
structure ExclusionRead where
  domains : Domains
  now : Time
  raises : Bool

def ExclusionRead.reply (read : ExclusionRead) : Reply :=
  if read.raises then .raised else .domains (read.domains.getExcludedDomains read.now)

/-- The domain is neither blocked nor inside its lock window. -/
def Domains.Allows (s : Domains) (domain : String) (now : Time) : Prop :=
  ∀ d, s.records.get? domain = some d →
    d.status ≠ some .blocked ∧ ¬ (d.status = some .locked ∧ ∃ t, d.lockedUntil = some t ∧ now < t)

/-- A document as the Frontier registers it. -/
structure UrlModel.AsRegistered (lib : Externals) (u : UrlModel) : Prop where
  reparses : u.Reparses lib
  bucket : u.bucket = lib.bucketize u.domain

/-- The exclusion read comes to what it reads, and the documents read are `known`.
Every read may raise, and the two reads of the urls may see different states. -/
def Answered (known : UrlModel → Prop) (read : ExclusionRead) : EnqueueCall → Time × Reply → Prop
  | .running _ (.excludedDomains _ _), (_, reply) => reply = read.reply
  | .running _ _, (_, .urls snapshot) => ∀ u ∈ snapshot, known u
  | _, _ => True

/-- A new domain in a bucket the worker may fetch from. -/
structure BackQueue.Eligible (lib : Externals) (q : BackQueue) (domain : String) : Prop where
  fresh : domain ∉ q.queues.keys
  assigned : lib.bucketize domain ∈ q.buckets
  open_ : lib.bucketize domain ∉ q.drainingBuckets

/-- The queues differ in the domain at most, where the payloads are of the domain. -/
structure BackQueue.Adds (q q' : BackQueue) (domain : String) : Prop where
  payloads : ∀ ps, q'.queues.get? domain = some ps → ∀ p ∈ ps, p.url.domain = domain
  queues : ∀ d, d ≠ domain → q'.queues.get? d = q.queues.get? d
  locks : ∀ d, d ≠ domain → q'.locks.get? d = q.locks.get? d
  releaseTimes : ∀ d, d ≠ domain → q'.releaseTimes.get? d = q.releaseTimes.get? d

/-- The domain the call works on: new, fetchable, and allowed unless the
exclusion read raised. -/
structure Choice (lib : Externals) (read : ExclusionRead) (q : BackQueue) (domain : String) : Prop where
  eligible : q.Eligible lib domain
  allowed : read.raises = false → read.domains.Allows domain read.now

/-- What the call has established by each of its awaits. -/
def EnqueueCall.Within (lib : Externals) (read : ExclusionRead) (q₀ : BackQueue) : EnqueueCall → Prop
  | .running q (.enqueue _) => q = q₀
  | .running q (.excludedDomains _ current) => q = q₀ ∧ current = q₀.queues.keys
  | .running q (.distinctDomains _ excluded fetchable) => q = q₀ ∧ fetchable = q₀.fetchableBuckets ∧
      ∀ d, d ∉ excluded → d ∉ q₀.queues.keys ∧ (read.raises = false → read.domains.Allows d read.now)
  | .running q (.domainUrls _ domain) => q = q₀ ∧ Choice lib read q₀ domain
  | .running q (.putting _ urls) => ∃ domain, Choice lib read q₀ domain ∧ q₀.Adds q domain ∧
      ∀ u ∈ urls, u.AsRegistered lib ∧ u.domain = domain
  | .running q (.domainReleaseTime _ domain urls) => Choice lib read q₀ domain ∧ q₀.Adds q domain ∧
      ∀ u ∈ urls, u.AsRegistered lib ∧ u.domain = domain
  | .running _ _ => False
  | .enqueued q => ∃ domain, Choice lib read q₀ domain ∧ q₀.Adds q domain
  | .refused q => q = q₀

section

variable {lib : Externals} {read : ExclusionRead} {q q₀ : BackQueue} {domain : String}

theorem Domains.allows_of_not_excluded {s : Domains} {now : Time} (h : domain ∉ s.getExcludedDomains now) :
    s.Allows domain now := by
  intro d hd
  have hnot : d.excluded now ≠ true := fun he => h (Domains.mem_getExcludedDomains.mpr ⟨d, hd, he⟩)
  constructor
  · intro hblocked
    exact hnot (DomainModel.excluded_of_blocked hblocked now)
  · rintro ⟨hlocked, t, ht, hlt⟩
    exact hnot (by simp [DomainModel.excluded, hlocked, ht, hlt])

theorem BackQueue.Adds.start (hfresh : domain ∉ q.queues.keys) : q.Adds q domain where
  payloads ps hps := absurd (Dicts.Dict.mem_keys_iff.mpr ⟨ps, hps⟩) hfresh
  queues _ _ := rfl
  locks _ _ := rfl
  releaseTimes _ _ := rfl

theorem BackQueue.Adds.put (h : q₀.Adds q domain) {p : Payload} (hp : p.url.domain = domain) :
    q₀.Adds (q.put p) domain := by
  subst hp
  constructor
  · intro ps hps x hx
    rw [get?_put_queues, if_pos rfl] at hps
    obtain rfl := Option.some.inj hps
    obtain hx | hx := List.mem_append.mp hx
    · cases hold : q.queues.get? p.url.domain with
      | none => simp [hold] at hx
      | some old =>
        rw [hold] at hx
        exact h.payloads old hold x hx
    · rw [List.mem_singleton.mp hx]
  · intro d hd
    rw [get?_put_queues, if_neg hd]
    exact h.queues d hd
  · intro d hd
    rw [put_locks_other p (.inl hd)]
    exact h.locks d hd
  · intro d hd
    rw [put_releaseTimes]
    exact h.releaseTimes d hd

theorem BackQueue.Adds.setReleaseTime (h : q₀.Adds q domain) (time : Time) :
    q₀.Adds (q.setReleaseTime domain time) domain where
  payloads := h.payloads
  queues := h.queues
  locks := h.locks
  releaseTimes d hd := (Dicts.Dict.get?_set_other _ hd _).trans (h.releaseTimes d hd)

theorem mem_fetchableBuckets {b : Nat} (h : b ∈ q.fetchableBuckets) : b ∈ q.buckets ∧ b ∉ q.drainingBuckets := by
  simpa [BackQueue.fetchableBuckets] using h

@[simp] theorem Caller.return_enqueuing (c : Caller) (b : Bool) : (c.return b).enqueuing = false :=
  Pc.idle_not_enqueuing (c.return_idle b)

@[simp] theorem Caller.raise_enqueuing (c : Caller) : c.raise.enqueuing = false :=
  Pc.idle_not_enqueuing c.raise_idle

/-- What the exclusion read came to, and what the domains outside of it are. -/
theorem allows_of_reply {reply : Reply} {excluded : List String} (he : (match reply with
      | .domains domains => some domains
      | .raised => some []
      | _ => none) = some excluded) (hreply : reply = read.reply) {d : String} (hd : d ∉ excluded)
    (hread : read.raises = false) : read.domains.Allows d read.now := by
  have hdomains : reply = .domains (read.domains.getExcludedDomains read.now) := by
    simp [hreply, ExclusionRead.reply, hread]
  subst hdomains
  obtain rfl := Option.some.inj he
  exact Domains.allows_of_not_excluded hd

theorem choice_of_distinct {snapshot : List UrlModel} {excluded : List String} (hknown : ∀ u ∈ snapshot, u.AsRegistered lib)
    (hex : ∀ d, d ∉ excluded → d ∉ q₀.queues.keys ∧ (read.raises = false → read.domains.Allows d read.now))
    (h : domain ∈ getDistinctDomains snapshot excluded q₀.fetchableBuckets 1) : Choice lib read q₀ domain := by
  obtain ⟨hout, u, hu, hdomain, hbucket⟩ := mem_getDistinctDomains h
  rw [(hknown u hu).bucket, hdomain] at hbucket
  obtain ⟨hassigned, hopen⟩ := mem_fetchableBuckets hbucket
  exact ⟨⟨(hex domain hout).1, hassigned, hopen⟩, (hex domain hout).2⟩

/-- One case for each await of the call. -/
theorem EnqueueCall.Within.step {s s' : EnqueueCall} {answer : Time × Reply} (h : s.Within lib read q₀)
    (ha : Answered (fun u => u.AsRegistered lib) read s answer) (hstep : s.step lib answer = some s') :
    s'.Within lib read q₀ := by
  obtain ⟨now, reply⟩ := answer
  cases s with
  | enqueued | refused => cases hstep
  | running q pc =>
    obtain ⟨a, hadvance, rfl⟩ := Option.map_eq_some_iff.mp hstep
    cases pc with
    | enqueue caller =>
      obtain rfl : q = q₀ := h
      cases reply <;> simp only [advance, reduceCtorEq] at hadvance
      split at hadvance <;> cases hadvance
      · simp [Pc.allPut, EnqueueCall.Within]
      · exact ⟨rfl, rfl⟩
    | excludedDomains caller current =>
      obtain ⟨rfl, rfl⟩ := h
      obtain ⟨excluded, he, rfl⟩ := Option.map_eq_some_iff.mp hadvance
      split
      · simp [Pc.allPut, EnqueueCall.Within]
      · refine ⟨rfl, rfl, fun d hd => ?_⟩
        rw [List.mem_append, not_or] at hd
        exact ⟨hd.1, allows_of_reply he ha hd.2⟩
    | distinctDomains caller excluded fetchable =>
      obtain ⟨rfl, rfl, hex⟩ := h
      cases reply <;> simp only [advance, reduceCtorEq] at hadvance
      · cases hadvance
        simp [Pc.allPut, EnqueueCall.Within]
      · rename_i snapshot
        split at hadvance <;> cases hadvance
        · simp [Pc.allPut, EnqueueCall.Within]
        · rename_i hlist
          exact ⟨rfl, choice_of_distinct ha hex (by rw [hlist]; exact List.mem_cons_self)⟩
    | domainUrls caller domain =>
      obtain ⟨rfl, hchoice⟩ := h
      cases reply <;> simp only [advance, reduceCtorEq] at hadvance
      · cases hadvance
        simp [Pc.allPut, EnqueueCall.Within]
      · rename_i snapshot
        split at hadvance <;> cases hadvance
        · simp [Pc.allPut, EnqueueCall.Within]
        · rename_i hlist
          refine ⟨domain, hchoice, .start hchoice.eligible.fresh, fun u hu => ?_⟩
          obtain ⟨hmem, hdomain, -⟩ := mem_getDomainUrls (hlist ▸ hu)
          exact ⟨ha u hmem, hdomain⟩
    | putting caller urls =>
      obtain ⟨domain, hchoice, hadds, hurls⟩ := h
      cases urls with
      | nil =>
        cases reply <;> simp only [advance, reduceCtorEq] at hadvance
        cases hadvance
        simp only [Caller.return_enqueuing, Pc.allPut]
        exact ⟨domain, hchoice, hadds⟩
      | cons u urls =>
        obtain ⟨⟨⟨url, hurl, -, hdomain⟩, -⟩, rfl⟩ := hurls u List.mem_cons_self
        have hrest := fun v hv => hurls v (List.mem_cons_of_mem _ hv)
        have hput := hadds.put (p := ⟨url, u.priority⟩) hdomain
        cases reply <;> simp only [advance, hurl, reduceCtorEq] at hadvance
        split at hadvance <;> cases hadvance
        · exact hdomain ▸ ⟨hdomain.symm ▸ hchoice, hdomain.symm ▸ hput, hdomain.symm ▸ hrest⟩
        · exact ⟨u.domain, hchoice, hput, hrest⟩
    | domainReleaseTime caller domain urls =>
      obtain ⟨hchoice, hadds, hurls⟩ := h
      obtain ⟨time, rfl⟩ := advance_releaseTime hadvance
      exact ⟨domain, hchoice, hadds.setReleaseTime time, hurls⟩
    | _ => exact h.elim

end

end Linksurf
