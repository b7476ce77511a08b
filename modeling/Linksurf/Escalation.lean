import Linksurf.Domains

/-!
# Concurrent locks of one domain

Every `lock_domain` call raises the count and locks the domain, and blocks it
in a second update where the count it read is due. A late first update puts the
lock back over a block, but reads a count that is due itself and blocks again.
-/
namespace Linksurf

open Dicts (Dict)
open Execution

/-- The deadline a call on the domain gives with its first update. -/
def DomainWrite.deadline? (domain : String) : DomainWrite → Option Time
  | .lockDomain d lockedUntil _ _ => if d = domain then some lockedUntil else none
  | _ => none

/-- Neither `unlock_domain` nor `record_language` on the domain. -/
def DomainWrite.Locks (domain : String) : DomainWrite → Prop
  | .unlockDomain d | .recordLanguage d _ _ _ => d ≠ domain
  | _ => True

namespace Domains

variable {s t : Domains} {domain : String} {ds : List Time}

/-- No call on the domain has its second update to send. -/
def Settled (s : Domains) (domain : String) : Prop := ∀ e ∈ s.pending, e.domain ≠ domain

/-- What calls with these deadlines have made of a domain that had no lock. -/
structure Escalating (domain : String) (ds : List Time) (s : Domains) : Prop where
  count : s.lockCount domain = ds.length
  settled : ds.length < MAX_DOMAIN_CONSECUTIVE_LOCKS → s.Settled domain
  below : ds.length < MAX_DOMAIN_CONSECUTIVE_LOCKS → s.status domain ≠ some .blocked
  locked : ds ≠ [] → ds.length < MAX_DOMAIN_CONSECUTIVE_LOCKS → s.status domain = some .locked
  blocks : MAX_DOMAIN_CONSECUTIVE_LOCKS ≤ ds.length → s.Blocks domain
  excluded : ds ≠ [] → ∀ now, (∀ u ∈ ds, now < u) → domain ∈ s.getExcludedDomains now

theorem status_congr (h : t.records.get? domain = s.records.get? domain) : t.status domain = s.status domain := by
  simp [status, h]

/-- A step that leaves the record alone and adds no second update. -/
theorem Escalating.of_record (h : Escalating domain ds s) (hrecord : t.records.get? domain = s.records.get? domain)
    (hpending : ∀ e ∈ t.pending, e.domain = domain → e ∈ s.pending)
    (hblocks : MAX_DOMAIN_CONSECUTIVE_LOCKS ≤ ds.length → t.Blocks domain) : Escalating domain ds t where
  count := by
    have hcount := h.count
    simp only [lockCount] at hcount ⊢
    rw [hrecord]
    exact hcount
  settled hlt e he hd := h.settled hlt e (hpending e he hd) hd
  below hlt := by
    rw [status_congr hrecord]
    exact h.below hlt
  locked hne hlt := by
    rw [status_congr hrecord]
    exact h.locked hne hlt
  blocks := hblocks
  excluded hne now hnow := by
    have hex := h.excluded hne now hnow
    rw [mem_getExcludedDomains] at hex ⊢
    rw [hrecord]
    exact hex

/-- The first update of another call. -/
theorem Escalating.lockDomain (h : Escalating domain ds s) (u now : Time) (reason : String) :
    Escalating domain (ds ++ [u]) (s.lockDomain domain u now reason) := by
  have hrecord : (s.lockDomain domain u now reason).records.get? domain = some ((s.document domain).lock u now) := by
    simp [Domains.lockDomain]
  have hcount : (s.document domain).lockCount.getD 0 = ds.length := by rw [document_lockCount, h.count]
  have hstatus := lockDomain_status_same s domain u now reason
  exact {
    count := by
      rw [lockCount_of_get? hrecord]
      simp [DomainModel.lock, hcount]
    settled := by
      intro hlt
      rw [List.length_append, List.length_singleton, ← h.count] at hlt
      rw [Settled, lockDomain_pending_of_lt u now reason hlt]
      exact h.settled (by rw [← h.count]; omega)
    below := by
      intro _
      simp [hstatus]
    locked := fun _ _ => hstatus
    blocks := by
      intro hle
      rw [List.length_append, List.length_singleton, ← h.count] at hle
      exact .inr ⟨hstatus, lockDomain_locking u now reason hle⟩
    excluded := by
      intro _ now' hnow
      have hu : now' < u := hnow u (by simp)
      rw [mem_getExcludedDomains]
      exact ⟨_, hrecord, by simp [DomainModel.excluded, DomainModel.lock, hu]⟩ }

theorem update_get?_other (s : Domains) {other : String} (h : other ≠ domain) (f : DomainModel → DomainModel) :
    (s.update other f).records.get? domain = s.records.get? domain := by
  unfold update
  split
  · exact Dict.get?_set_other _ h.symm _
  · rfl

theorem escalate_spec {i : Nat} {now : Time} (hs : s.step (.escalate i now) = some t) :
    ∃ e, s.pending[i]? = some e ∧ t.records = (s.update e.domain (fun d => d.block now e)).records ∧
      t.pending = s.pending.eraseIdx i := by
  obtain ⟨e, he, rfl⟩ := Option.map_eq_some_iff.mp hs
  exact ⟨e, he, rfl, rfl⟩

theorem Blocks.exists_record (h : s.Blocks domain) : ∃ d, s.records.get? domain = some d := by
  cases h with
  | inl hb => exact (exists_of_status hb).imp (fun _ hd => hd.1)
  | inr hl => exact (exists_of_status hl.1).imp (fun _ hd => hd.1)

/-- The second update of a call: only counts that are due lead to one. -/
theorem Escalating.escalate {i : Nat} {now : Time} (h : Escalating domain ds s)
    (hs : s.step (.escalate i now) = some t) : Escalating domain ds t := by
  have hblocks (hle : MAX_DOMAIN_CONSECUTIVE_LOCKS ≤ ds.length) : t.Blocks domain := (h.blocks hle).escalate hs
  obtain ⟨e, he, hrecords, hpending⟩ := escalate_spec hs
  have hkept : ∀ e' ∈ t.pending, e'.domain = domain → e' ∈ s.pending := by
    intro e' he' _
    rw [hpending] at he'
    exact List.mem_of_mem_eraseIdx he'
  by_cases hd : e.domain = domain
  · have hle : MAX_DOMAIN_CONSECUTIVE_LOCKS ≤ ds.length := by
      by_contra hlt
      exact h.settled (Nat.lt_of_not_le hlt) e (List.mem_of_getElem? he) hd
    obtain ⟨d, hget⟩ := (h.blocks hle).exists_record
    have hrecord : t.records.get? domain = some (d.block now e) := by simp [hrecords, update, hd, hget]
    have hcount : (d.block now e).lockCount = d.lockCount := by cases e <;> rfl
    exact {
      count := by rw [lockCount_of_get? hrecord, hcount, ← lockCount_of_get? hget, h.count]
      settled := fun hlt => absurd hle (Nat.not_le.mpr hlt)
      below := fun hlt => absurd hle (Nat.not_le.mpr hlt)
      locked := fun _ hlt => absurd hle (Nat.not_le.mpr hlt)
      blocks := hblocks
      excluded := by
        intro _ now' _
        rw [mem_getExcludedDomains]
        exact ⟨_, hrecord, DomainModel.excluded_of_blocked (DomainModel.block_status d now e) now'⟩ }
  · apply h.of_record
    · rw [hrecords, update_get?_other s hd]
    · exact hkept
    · exact hblocks

/-- A domain that has been locked has a record. -/
theorem Escalating.exists_record (h : Escalating domain ds s) (hne : ds ≠ []) :
    ∃ d, s.records.get? domain = some d := by
  by_cases hlt : ds.length < MAX_DOMAIN_CONSECUTIVE_LOCKS
  · exact (exists_of_status (h.locked hne hlt)).imp (fun _ hd => hd.1)
  · exact (h.blocks (Nat.le_of_not_lt hlt)).exists_record

/-- A new record has no lock. -/
theorem Escalating.saveDomain (h : Escalating domain ds s) (other : String) (bucket : Nat) :
    Escalating domain ds (s.saveDomain other bucket) := by
  by_cases hrecord : (s.saveDomain other bucket).records.get? domain = s.records.get? domain
  · apply h.of_record hrecord
    · intro e he _
      rwa [saveDomain_pending] at he
    · exact fun hle => (h.blocks hle).step (a := .saveDomain other bucket) trivial rfl
  · have hnew : s.records.get? domain = none ∧
        (s.saveDomain other bucket).records.get? domain = some (.fresh bucket) := by
      unfold Domains.saveDomain at hrecord ⊢
      split at hrecord
      · exact absurd rfl hrecord
      · rename_i hkeys
        by_cases hd : domain = other
        · subst hd
          exact ⟨(Dict.get?_eq_none_iff ..).mpr hkeys, by simp [hkeys]⟩
        · exact absurd (Dict.get?_set_other _ hd _) hrecord
    have hnil : ds = [] := by
      by_contra hne
      obtain ⟨d, hd⟩ := h.exists_record hne
      rw [hnew.1] at hd
      cases hd
    subst hnil
    exact {
      count := by simp [lockCount_of_get? hnew.2, DomainModel.fresh]
      settled := by
        intro hlt e he hd
        rw [saveDomain_pending] at he
        exact h.settled hlt e he hd
      below := by
        intro _
        simp [status, hnew.2, DomainModel.fresh]
      locked := fun hne => absurd rfl hne
      blocks := fun hle => absurd hle (by decide)
      excluded := fun hne => absurd rfl hne }

theorem Escalating.step {w : DomainWrite} (h : Escalating domain ds s) (hw : w.Locks domain)
    (hs : s.step w = some t) : Escalating domain (ds ++ (w.deadline? domain).toList) t := by
  cases w with
  | saveDomain other bucket =>
    obtain rfl := Option.some.inj hs
    simpa [DomainWrite.deadline?] using h.saveDomain other bucket
  | lockDomain other u now reason =>
    by_cases hd : other = domain
    · subst hd
      obtain rfl := Option.some.inj hs
      simpa [DomainWrite.deadline?] using h.lockDomain u now reason
    · have hblocks (hle : MAX_DOMAIN_CONSECUTIVE_LOCKS ≤ ds.length) : t.Blocks domain :=
        (h.blocks hle).step (a := .lockDomain other u now reason) (fun he => absurd he hd) hs
      obtain rfl := Option.some.inj hs
      simp only [DomainWrite.deadline?, if_neg hd, Option.toList_none, List.append_nil]
      apply h.of_record
      · exact Dict.get?_set_other _ (Ne.symm hd) _
      · intro e he hd'
        simp only [Domains.lockDomain] at he
        split at he
        · obtain hold | hnew := List.mem_append.mp he
          · exact hold
          · obtain rfl := List.mem_singleton.mp hnew
            exact absurd hd' hd
        · exact he
      · exact hblocks
  | unlockDomain other =>
    have hblocks (hle : MAX_DOMAIN_CONSECUTIVE_LOCKS ≤ ds.length) : t.Blocks domain :=
      (h.blocks hle).step (a := .unlockDomain other) (fun he => absurd he hw) hs
    obtain rfl := Option.some.inj hs
    simp only [DomainWrite.deadline?, Option.toList_none, List.append_nil]
    apply h.of_record
    · exact update_get?_other s hw _
    · intro e he _
      rwa [unlockDomain, update_pending] at he
    · exact hblocks
  | recordLanguage other language allowed threshold =>
    have hblocks (hle : MAX_DOMAIN_CONSECUTIVE_LOCKS ≤ ds.length) : t.Blocks domain :=
      (h.blocks hle).step (a := .recordLanguage other language allowed threshold) trivial hs
    obtain rfl := Option.some.inj hs
    simp only [DomainWrite.deadline?, Option.toList_none, List.append_nil]
    apply h.of_record
    · exact Dict.get?_set_other _ (Ne.symm hw) _
    · intro e he hd'
      simp only [recordLanguage] at he
      split at he
      · exact he
      · obtain hold | hnew := List.mem_append.mp he
        · exact hold
        · obtain rfl := List.mem_singleton.mp hnew
          exact absurd hd' hw
    · exact hblocks
  | escalate i now => simpa [DomainWrite.deadline?] using h.escalate hs

end Domains

end Linksurf
