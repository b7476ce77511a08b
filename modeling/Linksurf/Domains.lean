import Linksurf.BackQueue
import Linksurf.Execution

/-!
# Domain records

The `domains` collection with the calls that write it. A call is one atomic
update or two, and the updates of different calls interleave; a call that has
read a count due for a block waits for its second update. A domain stays
blocked as long as no later call finds its lock count in the wrong place.
-/
namespace Linksurf

open Dicts (Dict)
open Execution

def MAX_DOMAIN_CONSECUTIVE_LOCKS : Nat := 3
inductive DomainStatus where
  | active | locked | blocked
  deriving DecidableEq, Repr

/-- A document of the collection. Where an upsert of `lock_domain` or
`record_language` created it, the fields they do not write are absent. -/
structure DomainModel where
  bucket : Option Nat := none
  status : Option DomainStatus := none
  lockCount : Option Nat := none
  lockedUntil : Option Time := none
  blockedAt : Option Time := none
  blockedReason : Option String := none
  lastLockedAt : Option Time := none
  languages : Dict String Nat := .empty

/-- The second update of a call that read a count due for a block: of
`lock_domain` with its reason, or of `record_language` with the count read. -/
inductive Escalation where
  | locks (domain reason : String)
  | language (domain language : String) (count : Nat)
  deriving DecidableEq

structure Domains where
  records : Dict String DomainModel
  pending : List Escalation

def Domains.initial : Domains := ⟨.empty, []⟩

/-- The updates of the four calls; `escalate` is the second update of the call
waiting at position `i`. -/
inductive DomainWrite where
  | saveDomain (domain : String) (bucket : Nat)
  | lockDomain (domain : String) (lockedUntil now : Time) (reason : String)
  | unlockDomain (domain : String)
  | recordLanguage (domain language : String) (allowed : Bool) (threshold : Nat)
  | escalate (i : Nat) (now : Time)

namespace DomainModel

/-- `DomainModel(domain, bucket)`. -/
def fresh (bucket : Nat) : DomainModel := { bucket := some bucket, status := some .active, lockCount := some 0 }

/-- `$inc` of the lock count with `$set` of a lock window. -/
def lock (d : DomainModel) (lockedUntil now : Time) : DomainModel :=
  { d with
    lockCount := some (d.lockCount.getD 0 + 1)
    status := some .locked
    lockedUntil := some lockedUntil
    lastLockedAt := some now }

/-- The update of `unlock_domain`, which matches a positive lock count only. -/
def unlock (d : DomainModel) : DomainModel :=
  if 0 < d.lockCount.getD 0 then { d with status := some .active, lockCount := some 0, lockedUntil := none }
  else d

def countLanguage (d : DomainModel) (language : String) : DomainModel :=
  { d with languages := d.languages.set language ((d.languages.get? language).getD 0 + 1) }

/-- The blocking update. Only the one of `lock_domain` clears the lock window. -/
def block (d : DomainModel) (now : Time) : Escalation → DomainModel
  | .locks _ reason =>
    { d with
      status := some .blocked
      blockedAt := some now
      blockedReason := some reason
      lockedUntil := none }
  | .language _ language count =>
    { d with
      status := some .blocked
      blockedAt := some now
      blockedReason := some s!"Found {count} pages for disallowed language ({language})." }

/-- The query of `get_excluded_domains`. -/
def excluded (d : DomainModel) (now : Time) : Bool :=
  d.status = some .blocked || (d.status = some .locked && d.lockedUntil.any (now < ·))

@[simp] theorem lock_status (d : DomainModel) (u n : Time) : (d.lock u n).status = some .locked := rfl
@[simp] theorem block_status (d : DomainModel) (n : Time) (e : Escalation) :
    (d.block n e).status = some .blocked := by cases e <;> rfl
@[simp] theorem countLanguage_status (d : DomainModel) (l : String) :
    (d.countLanguage l).status = d.status := rfl

theorem unlock_of_eq_zero {d : DomainModel} (h : d.lockCount.getD 0 = 0) : d.unlock = d := by
  simp [unlock, h]

theorem unlock_of_pos {d : DomainModel} (h : 0 < d.lockCount.getD 0) : d.unlock.status = some .active := by
  simp [unlock, h]

theorem excluded_of_blocked {d : DomainModel} (h : d.status = some .blocked) (now : Time) :
    d.excluded now = true := by simp [excluded, h]

end DomainModel

def Escalation.domain : Escalation → String
  | .locks domain _ | .language domain _ _ => domain

namespace Domains

/-- `update_one` without an upsert. -/
def update (s : Domains) (domain : String) (f : DomainModel → DomainModel) : Domains :=
  match s.records.get? domain with
  | some d => { s with records := s.records.set domain (f d) }
  | none => s

/-- The document an update with `upsert=True` starts from. -/
def document (s : Domains) (domain : String) : DomainModel := (s.records.get? domain).getD {}

def saveDomain (s : Domains) (domain : String) (bucket : Nat) : Domains :=
  if domain ∈ s.records.keys then s else { s with records := s.records.set domain (.fresh bucket) }

def lockDomain (s : Domains) (domain : String) (lockedUntil now : Time) (reason : String) : Domains :=
  let result := (s.document domain).lock lockedUntil now
  { records := s.records.set domain result
    pending :=
      if MAX_DOMAIN_CONSECUTIVE_LOCKS ≤ result.lockCount.getD 0 then s.pending ++ [.locks domain reason]
      else s.pending }

def unlockDomain (s : Domains) (domain : String) : Domains := s.update domain (fun d => d.unlock)

def recordLanguage (s : Domains) (domain language : String) (allowed : Bool) (threshold : Nat) : Domains :=
  let result := (s.document domain).countLanguage language
  let count := (result.languages.get? language).getD 0
  { records := s.records.set domain result
    pending := if allowed || count < threshold then s.pending else s.pending ++ [.language domain language count] }

def step (s : Domains) : DomainWrite → Option Domains
  | .saveDomain domain bucket => some (s.saveDomain domain bucket)
  | .lockDomain domain lockedUntil now reason => some (s.lockDomain domain lockedUntil now reason)
  | .unlockDomain domain => some (s.unlockDomain domain)
  | .recordLanguage domain language allowed threshold => some (s.recordLanguage domain language allowed threshold)
  | .escalate i now => s.pending[i]?.map (fun e =>
      { s.update e.domain (fun d => d.block now e) with pending := s.pending.eraseIdx i })

def getExcludedDomains (s : Domains) (now : Time) : List String :=
  (s.records.entries.filter (fun e => e.2.excluded now)).map Prod.fst

def status (s : Domains) (domain : String) : Option DomainStatus :=
  (s.records.get? domain).bind (fun d => d.status)

def lockCount (s : Domains) (domain : String) : Nat :=
  ((s.records.get? domain).bind (fun d => d.lockCount)).getD 0

/-- A `lock_domain` call has raised the count and not yet sent its block. -/
def Locking (s : Domains) (domain : String) : Prop := ∃ reason, .locks domain reason ∈ s.pending

end Domains

/-! ## The calls of the pipeline -/

/-- The class names of the lock-triggering exceptions. -/
def FetchException.name : FetchException → String
  | .connectTimeout => "ConnectTimeoutError"
  | .readTimeout => "ReadTimeoutError"
  | .read => "ReadError"
  | .connect => "ConnectError"
  | .other => "Exception"

namespace Domains

variable {s t : Domains} {domain : String}

/-- The domain is blocked, or locked by a call that is about to block it. -/
def Blocks (s : Domains) (domain : String) : Prop :=
  s.status domain = some .blocked ∨ (s.status domain = some .locked ∧ s.Locking domain)

/-- An unlock finds no lock to clear, and a lock finds the count one short of
the limit or beyond. -/
def Harmless (domain : String) (s : Domains) : DomainWrite → Prop
  | .unlockDomain d => d = domain → s.lockCount domain = 0
  | .lockDomain d _ _ _ => d = domain → MAX_DOMAIN_CONSECUTIVE_LOCKS ≤ s.lockCount domain + 1
  | _ => True

theorem status_set_same (s : Domains) (domain : String) (d : DomainModel) (pending : List Escalation) :
    (Domains.mk (s.records.set domain d) pending).status domain = d.status := by
  simp [status]

theorem status_set_other (s : Domains) {domain other : String} (h : domain ≠ other) (d : DomainModel)
    (pending : List Escalation) :
    (Domains.mk (s.records.set other d) pending).status domain = s.status domain := by
  simp [status, Dict.get?_set_other _ h]

theorem update_pending (s : Domains) (domain : String) (f : DomainModel → DomainModel) :
    (s.update domain f).pending = s.pending := by
  unfold update
  split <;> rfl

theorem status_update_other (s : Domains) {domain other : String} (h : domain ≠ other)
    (f : DomainModel → DomainModel) : (s.update other f).status domain = s.status domain := by
  unfold update
  split
  · apply status_set_other s h
  · rfl

/-- A document that is there is updated. -/
theorem status_update_same {d : DomainModel} (h : s.records.get? domain = some d)
    (f : DomainModel → DomainModel) : (s.update domain f).status domain = (f d).status := by
  simp [update, h, status]

theorem exists_of_status {x : DomainStatus} (h : s.status domain = some x) :
    ∃ d, s.records.get? domain = some d ∧ d.status = some x := Option.bind_eq_some_iff.mp h

theorem lockCount_of_get? {d : DomainModel} (h : s.records.get? domain = some d) :
    s.lockCount domain = d.lockCount.getD 0 := by simp [lockCount, h]

/-- A block survives every update that leaves the status alone and drops no
waiting block of the domain. -/
theorem Blocks.of_status (hb : s.Blocks domain) (hst : t.status domain = s.status domain)
    (hp : s.Locking domain → t.Locking domain) : t.Blocks domain := by
  cases hb with
  | inl h => exact .inl (hst.trans h)
  | inr h => exact .inr ⟨hst.trans h.1, hp h.2⟩

theorem Locking.append (h : s.Locking domain) (ht : ∃ es, t.pending = s.pending ++ es) : t.Locking domain := by
  obtain ⟨reason, hmem⟩ := h
  obtain ⟨es, hes⟩ := ht
  exact ⟨reason, by rw [hes]; exact List.mem_append_left _ hmem⟩

theorem lockDomain_pending (s : Domains) (domain : String) (u n : Time) (reason : String) :
    ∃ es, (s.lockDomain domain u n reason).pending = s.pending ++ es := by
  unfold lockDomain
  dsimp only
  split
  · exact ⟨_, rfl⟩
  · exact ⟨[], by simp⟩

theorem recordLanguage_pending (s : Domains) (domain language : String) (allowed : Bool) (threshold : Nat) :
    ∃ es, (s.recordLanguage domain language allowed threshold).pending = s.pending ++ es := by
  unfold recordLanguage
  dsimp only
  split
  · exact ⟨[], by simp⟩
  · exact ⟨_, rfl⟩

theorem document_lockCount (s : Domains) (domain : String) :
    (s.document domain).lockCount.getD 0 = s.lockCount domain := by
  cases h : s.records.get? domain <;> simp [document, lockCount, h]

theorem document_status (s : Domains) (domain : String) : (s.document domain).status = s.status domain := by
  cases h : s.records.get? domain <;> simp [document, status, h]

theorem lockDomain_status_same (s : Domains) (domain : String) (u n : Time) (reason : String) :
    (s.lockDomain domain u n reason).status domain = some .locked := by
  rw [lockDomain, status_set_same, DomainModel.lock_status]

theorem lockDomain_status_other (s : Domains) {domain other : String} (h : domain ≠ other) (u n : Time)
    (reason : String) : (s.lockDomain other u n reason).status domain = s.status domain := by
  rw [lockDomain, status_set_other s h]

/-- Raising the count to the limit leaves the call with its block to send. -/
theorem lockDomain_locking (u n : Time) (reason : String)
    (h : MAX_DOMAIN_CONSECUTIVE_LOCKS ≤ s.lockCount domain + 1) :
    (s.lockDomain domain u n reason).Locking domain := by
  rw [← document_lockCount] at h
  exact ⟨reason, by simp [lockDomain, DomainModel.lock, h]⟩

/-- Below the limit the call is over with its first update. -/
theorem lockDomain_pending_of_lt (u n : Time) (reason : String)
    (h : s.lockCount domain + 1 < MAX_DOMAIN_CONSECUTIVE_LOCKS) :
    (s.lockDomain domain u n reason).pending = s.pending := by
  rw [← document_lockCount] at h
  simp [lockDomain, DomainModel.lock, Nat.not_le.mpr h]

theorem recordLanguage_status (s : Domains) (domain other language : String) (allowed : Bool) (threshold : Nat) :
    (s.recordLanguage other language allowed threshold).status domain = s.status domain := by
  by_cases h : domain = other
  · subst h
    rw [recordLanguage, status_set_same, DomainModel.countLanguage_status, document_status]
  · rw [recordLanguage, status_set_other s h]

theorem saveDomain_status (s : Domains) (domain other : String) (bucket : Nat) (h : s.status domain ≠ none) :
    (s.saveDomain other bucket).status domain = s.status domain := by
  unfold saveDomain
  split
  · rfl
  · rename_i hnew
    apply status_set_other s
    intro he
    subst he
    apply h
    rw [← Dict.get?_eq_none_iff] at hnew
    simp [status, hnew]

theorem saveDomain_pending (s : Domains) (domain : String) (bucket : Nat) :
    (s.saveDomain domain bucket).pending = s.pending := by
  unfold saveDomain
  split <;> rfl

/-- Sending a waiting block: the domain is blocked, or the block was another's. -/
theorem Blocks.escalate {i : Nat} {now : Time} (hb : s.Blocks domain)
    (hs : s.step (.escalate i now) = some t) : t.Blocks domain := by
  obtain ⟨e, he, rfl⟩ := Option.map_eq_some_iff.mp hs
  by_cases hd : domain = e.domain
  · left
    obtain ⟨x, hx⟩ : ∃ x, s.status domain = some x := by
      cases hb with
      | inl h => exact ⟨_, h⟩
      | inr h => exact ⟨_, h.1⟩
    obtain ⟨d, hget, -⟩ := exists_of_status hx
    have h := status_update_same (hd ▸ hget) (fun d => d.block now e)
    rw [DomainModel.block_status] at h
    rw [hd]
    exact h
  · apply hb.of_status (t := { s.update e.domain (fun d => d.block now e) with pending := s.pending.eraseIdx i })
      (status_update_other s hd _)
    intro ⟨reason, hmem⟩
    obtain ⟨j, hj⟩ := List.mem_iff_getElem?.mp hmem
    have hij : j ≠ i := by
      intro h
      subst h
      rw [he] at hj
      cases hj
      exact hd rfl
    exact ⟨reason, List.mem_eraseIdx_iff_getElem?.mpr ⟨j, hij, hj⟩⟩

/-- A harmless step keeps a block. -/
theorem Blocks.step {a : DomainWrite} (hb : s.Blocks domain) (hp : Harmless domain s a)
    (hs : s.step a = some t) : t.Blocks domain := by
  cases a with
  | saveDomain other bucket =>
    obtain rfl := Option.some.inj hs
    have hne : s.status domain ≠ none := by
      cases hb with
      | inl h => simp [h]
      | inr h => simp [h.1]
    apply hb.of_status (saveDomain_status s domain other bucket hne)
    intro h
    exact h.append ⟨[], by rw [saveDomain_pending, List.append_nil]⟩
  | lockDomain other u n reason =>
    obtain rfl := Option.some.inj hs
    by_cases hd : domain = other
    · subst hd
      exact .inr ⟨lockDomain_status_same s domain u n reason, lockDomain_locking u n reason (hp rfl)⟩
    · apply hb.of_status (lockDomain_status_other s hd u n reason)
      intro h
      exact h.append (lockDomain_pending s other u n reason)
  | unlockDomain other =>
    obtain rfl := Option.some.inj hs
    have hst : (s.unlockDomain other).status domain = s.status domain := by
      by_cases hd : domain = other
      · subst hd
        cases hget : s.records.get? domain with
        | none => simp [unlockDomain, update, hget]
        | some d =>
          have hzero : d.lockCount.getD 0 = 0 := by rw [← lockCount_of_get? hget]; exact hp rfl
          rw [unlockDomain, status_update_same hget, DomainModel.unlock_of_eq_zero hzero]
          simp [status, hget]
      · exact status_update_other s hd _
    apply hb.of_status hst
    intro h
    exact h.append ⟨[], by rw [unlockDomain, update_pending, List.append_nil]⟩
  | recordLanguage other language allowed threshold =>
    obtain rfl := Option.some.inj hs
    apply hb.of_status (recordLanguage_status s domain other language allowed threshold)
    intro h
    exact h.append (recordLanguage_pending s other language allowed threshold)
  | escalate i now => exact hb.escalate hs

/-- From a block that no lock call is about to renew, exactly the harmless
steps keep it. -/
theorem blocks_step_iff {a : DomainWrite} (hb : s.status domain = some .blocked) (hl : ¬ s.Locking domain)
    (hs : s.step a = some t) : t.Blocks domain ↔ Harmless domain s a := by
  constructor
  · intro ht
    cases a with
    | lockDomain other u n reason =>
      obtain rfl := Option.some.inj hs
      intro hd
      subst hd
      by_contra hlt
      have hst := lockDomain_status_same s other u n reason
      have hpend := lockDomain_pending_of_lt u n reason (Nat.lt_of_not_le hlt)
      cases ht with
      | inl h => rw [hst] at h; cases h
      | inr h => exact hl (by simpa [Locking, hpend] using h.2)
    | unlockDomain other =>
      obtain rfl := Option.some.inj hs
      intro hd
      subst hd
      by_contra hpos
      obtain ⟨d, hget, -⟩ := exists_of_status hb
      rw [lockCount_of_get? hget] at hpos
      have hst := status_update_same hget (fun d => d.unlock)
      rw [DomainModel.unlock_of_pos (Nat.pos_of_ne_zero hpos)] at hst
      cases ht with
      | inl h => rw [unlockDomain, hst] at h; cases h
      | inr h => rw [unlockDomain, hst] at h; cases h.1
    | _ => trivial
  · intro hp
    exact Blocks.step (.inl hb) hp hs

theorem mem_getExcludedDomains {now : Time} :
    domain ∈ s.getExcludedDomains now ↔ ∃ d, s.records.get? domain = some d ∧ d.excluded now = true := by
  simp only [getExcludedDomains, List.mem_map, List.mem_filter, Dict.get?_eq_some_iff]
  constructor
  · rintro ⟨⟨k, d⟩, ⟨hmem, hex⟩, rfl⟩
    exact ⟨d, hmem, hex⟩
  · rintro ⟨d, hmem, hex⟩
    exact ⟨(domain, d), ⟨hmem, hex⟩, rfl⟩

end Domains

def refused : Fetched := .response 503 0

end Linksurf
