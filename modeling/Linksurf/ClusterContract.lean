import Linksurf.Cluster
import Linksurf.PassContract

/-!
# Workers keeping to the lock

When the coordination lock excludes its users, `coordinate` and `release` base
every write on records that are still as they were read. The argument is the
same whatever makes a worker's buckets free for others to take, so that is a
parameter, as is what it means for a worker to use a bucket.
-/
namespace Linksurf

open Coroutine Pool

namespace Shared

/-- The worker registered at some time. -/
def Known (s : Shared) (worker : WorkerId) : Prop := (s.processes worker).stage ≠ .new

/-- The worker's lease has not run out. -/
def Live (s : Shared) (worker : WorkerId) : Prop :=
  ∃ w ∈ s.db.workers.records, w.id = worker ∧ s.now < w.expiresAt

def Owns (s : Shared) (worker : WorkerId) (bucket : Nat) : Prop :=
  ∃ r, s.db.buckets.get? bucket = some r ∧ r.ownerId = some worker

/-- Records are well formed and name workers that registered. -/
structure Sane (s : Shared) : Prop where
  wellFormed : ∀ r ∈ s.db.buckets.records, r.WellFormed
  workers : ∀ w ∈ s.db.workers.records, s.Known w.id
  names : ∀ r ∈ s.db.buckets.records, ∀ w, r.ownerId = some w ∨ r.successorId = some w → s.Known w

end Shared

/-- When a worker's buckets may be taken, when it does not mind, and when it
uses a bucket. -/
structure Regime (lib : Externals) where
  gone : Shared → WorkerId → Prop
  yielded : Shared → WorkerId → Prop
  uses : Shared → WorkerId → Nat → Prop
  inv : Shared → Prop
  sane : ∀ {s}, inv s → s.Sane
  yielded_of_gone : ∀ {s w}, gone s w → yielded s w
  live_or_gone : ∀ {s w}, inv s → s.Known w → s.Live w ∨ gone s w
  drained_unused : ∀ {s w b}, inv s → s.generalFree w → b ∈ (s.processes w).node.queue.drainedBuckets lib →
    ¬ uses s w b
  /-- Being gone is a matter of the process and its lease. -/
  gone_frame : ∀ {s s' : Shared} {w}, gone s w → s'.processes w = s.processes w →
    s'.db.workers = s.db.workers → s'.now = s.now → gone s' w
  yielded_frame : ∀ {s s' : Shared} {w}, yielded s w → s'.processes w = s.processes w →
    s'.db.workers = s.db.workers → s'.now = s.now → yielded s' w
  /-- Using a bucket is a matter of the process. -/
  uses_frame : ∀ {s s' : Shared} {w b}, uses s' w b → s'.processes w = s.processes w → uses s w b

namespace Regime

variable {lib : Externals} (G : Regime lib)

/-- What a coroutine sees of everybody else. -/
structure Rely (t : ThreadId) (s s' : Shared) : Prop where
  lock : s.lock = some t → s'.lock = some t
  kept : s.lock = some t → s.db.buckets.Kept s'.db.buckets
  now : s.now ≤ s'.now
  known : ∀ w, s.Known w → s'.Known w
  gone : ∀ w, G.gone s w → G.gone s' w
  yielded : ∀ w, G.yielded s w → G.yielded s' w
  owned : t.role = .coordination → ∀ b, s.Owns t.worker b → s'.Owns t.worker b ∨ G.yielded s' t.worker
  unused : t.role = .coordination → ∀ b, ¬ G.uses s t.worker b → ¬ G.uses s' t.worker b

/-- What a coroutine owes for a call. -/
def Debt (t : ThreadId) : Call → Shared → Prop
  | .setBucketAssignment bucket owner _, s => s.lock = some t ∧ (∀ w, owner = some w → s.Known w) ∧
    ∀ r, s.db.buckets.get? bucket = some r → match t.role with
      | .coordination => r.state = .unassigned ∨ ∃ o, r.ownerId = some o ∧ G.gone s o
      | .shutdown => r.ownerId = some t.worker ∧ owner = none ∧ G.yielded s t.worker
  | .markBucketDraining _ _ successor, s => s.lock = some t ∧ s.Known successor
  | .promoteDrainedBucket bucket owner _, s =>
    s.lock = some t ∧ t.role = .coordination ∧ owner = t.worker ∧ ¬ G.uses s t.worker bucket
  | .deleteExpiredWorkers now, s => now ≤ s.now
  | .deleteWorker worker, s => t.role = .shutdown ∧ worker = t.worker ∧ G.yielded s t.worker
  | .setBuckets assignments, s => t.role = .coordination ∧
    ∀ r ∈ assignments, r.state.held → s.Owns t.worker r.id ∨ G.yielded s t.worker
  | _, _ => True

def discipline : Discipline ThreadId Shared Call Call.Reply where
  inv := G.inv
  rely := G.Rely
  pre := G.Debt
  exec t call s reply s' := s.execute lib t call = some (reply, s')
  refl _ _ := ⟨id, fun _ => .refl _, le_refl _, fun _ h => h, fun _ h => h, fun _ h => h,
    fun _ _ h => .inl h, fun _ _ h => h⟩
  trans h h' := {
    lock := fun hl => h'.lock (h.lock hl)
    kept := fun hl => (h.kept hl).trans (h'.kept (h.lock hl))
    now := le_trans h.now h'.now
    known := fun w hw => h'.known w (h.known w hw)
    gone := fun w hw => h'.gone w (h.gone w hw)
    yielded := fun w hw => h'.yielded w (h.yielded w hw)
    owned := fun hr b hb => (h.owned hr b hb).elim (h'.owned hr b) (fun hy => .inr (h'.yielded _ hy))
    unused := fun hr b hb => h'.unused hr b (h.unused hr b hb) }

variable {G} {t : ThreadId} {s s' : Shared}

/-! ## Knowledge of a pass -/

/-- With the workers read: they registered, and owners outside are gone. -/
structure PassKnows (G : Regime lib) (t : ThreadId) (workers : List WorkerModel) (s : Shared) : Prop where
  lock : s.lock = some t
  known : ∀ w ∈ liveIds workers, s.Known w
  gone : ∀ b r, s.db.buckets.get? b = some r → ∀ o, r.ownerId = some o → o ∈ liveIds workers ∨ G.gone s o

theorem PassKnows.later {workers : List WorkerModel} (h : PassKnows G t workers s) (hr : G.Rely t s s') :
    PassKnows G t workers s' where
  lock := hr.lock h.lock
  known w hw := hr.known w (h.known w hw)
  gone b r' hr' o ho := by
    rcases (hr.kept h.lock).back b r' hr' with hf | ⟨r, hget, hs⟩
    · rw [hf.owner] at ho; cases ho
    · exact (h.gone b r hget o (hs.owner ▸ ho)).imp_right (hr.gone o)

theorem passKnows_stable {workers : List WorkerModel} : G.discipline.Stable t (PassKnows G t workers) :=
  fun _ _ _ hr h => h.later hr

/-- A write that keeps owners or names one of the list. -/
theorem PassKnows.updateOne {workers : List WorkerModel} (h : PassKnows G t workers s) {id : Nat}
    {filter : BucketModel → Bool} {update : BucketModel → BucketModel}
    (hu : ∀ x, (update x).ownerId = x.ownerId ∨ ∀ o, (update x).ownerId = some o → o ∈ liveIds workers) :
    PassKnows G t workers { s with db := { s.db with buckets := s.db.buckets.updateOne id filter update } } where
  lock := h.lock
  known := h.known
  gone b r hr o ho := by
    change (s.db.buckets.updateOne id filter update).get? b = some r at hr
    rw [Buckets.get?_updateOne] at hr
    obtain ⟨x, hx, rfl⟩ := Option.map_eq_some_iff.mp hr
    unfold Buckets.rewriteOne at ho
    split at ho
    · rcases hu x with he | hall
      · exact (h.gone b x hx o (he ▸ ho)).imp_right (fun hg : G.gone s o => G.gone_frame hg rfl rfl rfl)
      · exact .inl (hall o ho)
    · exact (h.gone b x hx o ho).imp_right (fun hg : G.gone s o => G.gone_frame hg rfl rfl rfl)

theorem knows (hrole : t.role = .coordination) (workers : List WorkerModel) :
    Knows G.discipline t Shared.db (liveIds workers) (readyIds workers) (PassKnows G t workers) where
  stable := passKnows_stable
  kept _ _ _ h hr := hr.kept h.lock
  execute s call r s' _ h howes he := by
    cases call with
    | setBucketAssignment bucket owner state =>
      cases he
      refine ⟨h.updateOne (fun x => .inr (fun o ho => ?_)), rfl⟩
      exact readyIds_subset workers o (howes.2.1 o ho)
    | markBucketDraining bucket owner successor =>
      cases he
      exact ⟨h.updateOne (fun x => .inl rfl), rfl⟩
    | getBuckets => cases he; exact ⟨h, rfl⟩
    | _ => exact howes.elim
  pays s call _ h howes := by
    cases call with
    | setBucketAssignment bucket owner state =>
      refine ⟨h.lock, fun w hw => h.known w (readyIds_subset workers w (howes.2.1 w hw)), fun r hr => ?_⟩
      rw [hrole]
      rcases howes.1 r hr with hfree | ⟨o, ho, hdead⟩
      · exact .inl hfree
      · exact .inr ⟨o, ho, (h.gone bucket r hr o ho).resolve_left hdead⟩
    | markBucketDraining bucket owner successor => exact ⟨h.lock, h.known _ (readyIds_subset workers _ howes)⟩
    | getBuckets => trivial
    | _ => exact howes.elim
  ready := readyIds_subset workers

/-! ## The coroutines are safe -/

/-- What the others leave a lock holder. -/
theorem stable_lock (locked : Prop) : G.discipline.Stable t (fun s => locked → s.lock = some t) :=
  fun _ _ _ hr h hl => Rely.lock hr (h hl)

theorem stable_yielded : G.discipline.Stable t (fun s => G.yielded s t.worker) :=
  fun _ _ _ hr h => Rely.yielded hr _ h

theorem safe_done {α : Type} (a : α) (s : Shared) :
    G.discipline.Safe t (fun _ _ => True) (.ret a : Async α) s :=
  Discipline.safe_ret (Discipline.stable_const True) trivial (fun _ _ _ => trivial)

/-- A call that owes nothing, made without knowledge. -/
theorem safe_free {α : Type} {post : α → Shared → Prop} {call : Call} {k : call.Reply → Async α}
    (hfree : ∀ s, G.Debt t call s)
    (hk : ∀ s r s', G.inv s → s.execute lib t call = some (r, s') → G.discipline.Safe t post (k r) s') (s : Shared) :
    G.discipline.Safe t post (await call >>= k) s :=
  Discipline.safe_perform (Discipline.stable_const True) trivial (fun s _ _ => hfree s)
    (fun s hinv _ r s' he => hk s r s' hinv he)

theorem safe_readWorkers (h : s.lock = some t) :
    G.discipline.Safe t (fun workers s => PassKnows G t workers s) readWorkers s := by
  refine Discipline.safe_perform (A := fun s => s.lock = some t) (fun _ _ _ hr h => Rely.lock hr h) h
    (fun _ _ _ => by trivial) ?_
  rintro s - h now s' he
  cases he
  have hstable : G.discipline.Stable t (fun s' => s'.lock = some t ∧ s.now ≤ s'.now) :=
    fun _ _ _ hr h => ⟨Rely.lock hr h.1, le_trans h.2 (Rely.now hr)⟩
  refine Discipline.safe_perform hstable ⟨h, le_refl _⟩ (fun _ _ h => h.2) ?_
  rintro s₁ - h₁ _ s₂ he
  cases he
  refine Discipline.safe_await hstable (by exact ⟨h₁.1, h₁.2⟩) (fun _ _ _ => by trivial) ?_
  rintro s₃ hinv h₃ workers s₄ he
  cases he
  have hsane := G.sane hinv
  have hknows : PassKnows G t (s₃.db.workers.getLiveWorkers s.now) s₃ := ⟨h₃.1, ?_, ?_⟩
  · exact Discipline.safe_ret passKnows_stable hknows (fun _ _ h => h)
  · intro w hw
    obtain ⟨worker, hmem, rfl⟩ := List.mem_map.mp hw
    exact hsane.workers worker (List.mem_of_mem_filter hmem)
  · intro b r hr o ho
    refine (G.live_or_gone hinv (hsane.names r (Buckets.get?_mem hr) o (.inl ho))).imp_left ?_
    rintro ⟨worker, hmem, rfl, hlive⟩
    refine List.mem_map_of_mem (List.mem_filter.mpr ⟨hmem, ?_⟩)
    simpa using lt_of_le_of_lt h₃.2 hlive

theorem safe_promoteLocal (hrole : t.role = .coordination) (buckets : List BucketModel) (h : s.lock = some t) :
    G.discipline.Safe t (fun _ _ => True) (promoteLocal t.worker buckets) s := by
  have hloop : ∀ ids {s : Shared}, (s.lock = some t ∧ ∀ b ∈ ids, ¬ G.uses s t.worker b) →
      G.discipline.Safe t (fun _ _ => True) (promoteDrained t.worker buckets ids) s := by
    intro ids
    induction ids with
    | nil => exact fun _ => safe_done () _
    | cons id rest ih =>
      intro s h
      rw [promoteDrained]
      split
      · exact ih ⟨h.1, fun b hb => h.2 b (List.mem_cons_of_mem _ hb)⟩
      · refine Discipline.safe_perform (A := fun s => s.lock = some t ∧ ∀ b ∈ id :: rest, ¬ G.uses s t.worker b)
          (fun _ _ _ hr h => ⟨Rely.lock hr h.1, fun b hb => Rely.unused hr hrole b (h.2 b hb)⟩) h
          (fun s _ h => ⟨h.1, hrole, rfl, h.2 id List.mem_cons_self⟩) ?_
        rintro s - h r s' he
        cases he
        exact ih ⟨h.1, fun b hb hu => h.2 b (List.mem_cons_of_mem _ hb) (G.uses_frame hu rfl)⟩
  refine Discipline.safe_perform (A := fun s => s.lock = some t) (fun _ _ _ hr h => Rely.lock hr h) h
    (fun _ _ _ => by trivial) ?_
  rintro s - h on s' he
  cases he
  change G.discipline.Safe t _ (if (s.processes t.worker).node.queue.ready then _ else _) s
  split
  · refine Discipline.safe_perform (A := fun s => s.lock = some t) (fun _ _ _ hr h => Rely.lock hr h) h
      (fun _ _ _ => by trivial) ?_
    rintro s hinv h ids s' he
    simp only [discipline, Shared.execute] at he
    split at he
    · rename_i hfree
      cases he
      exact hloop _ ⟨h, fun b hb => G.drained_unused hinv hfree hb⟩
    · cases he
  · exact safe_done () s

theorem safe_reconcile (hrole : t.role = .coordination) (moves : BucketMoves) (h : s.lock = some t) :
    G.discipline.Safe t (fun _ _ => True) (reconcile moves t.worker) s := by
  rw [reconcile_eq]
  refine Discipline.safe_bind (safe_readWorkers h) (fun workers s _ hK => ?_)
  exact (knows hrole workers).pass moves t.worker (fun buckets s _ hs _ => safe_promoteLocal hrole buckets hs.1.lock) hK

/-- Synchronising tells the back queue of buckets that are still owned. -/
theorem safe_sync (hrole : t.role = .coordination) (locked : Prop) (h : locked → s.lock = some t) :
    G.discipline.Safe t (fun _ s => locked → s.lock = some t) (syncBackqueueAssignments t.worker) s := by
  refine Discipline.safe_perform (stable_lock locked) h (fun _ _ _ => by trivial) ?_
  rintro s - h assignments s' he
  cases he
  have howned : ∀ r ∈ s.db.buckets.getOwnedBuckets t.worker, s.Owns t.worker r.id ∨ G.yielded s t.worker := by
    intro r hr
    obtain ⟨hmem, ho⟩ := List.mem_filter.mp hr
    exact .inl ⟨r, Buckets.get?_of_mem hmem, by simpa using ho⟩
  refine Discipline.safe_perform (A := fun s' => (locked → s'.lock = some t) ∧
      ∀ r ∈ s.db.buckets.getOwnedBuckets t.worker, s'.Owns t.worker r.id ∨ G.yielded s' t.worker)
    (fun _ _ _ hr h => ⟨fun hl => Rely.lock hr (h.1 hl), fun r hin => ?_⟩) ⟨h, howned⟩
    (fun _ _ h => ⟨hrole, fun r hin _ => h.2 r hin⟩) ?_
  · exact (h.2 r hin).elim (Rely.owned hr hrole r.id) (fun hy => .inr (Rely.yielded hr _ hy))
  · rintro s₁ - h₁ _ s₂ he
    cases he
    exact Discipline.safe_ret (stable_lock locked) (by exact h₁.1) (fun _ _ h => h)

theorem safe_acquire (hrole : t.role = .coordination) (moves : BucketMoves) (s : Shared) :
    G.discipline.Safe t (fun _ _ => True) (acquire moves t.worker) s := by
  refine safe_free (fun _ => by trivial) (fun s _ s' _ he => ?_) s
  have hlock : s'.lock = some t := by
    simp only [Shared.execute] at he
    split at he <;> cases he
    rfl
  refine Discipline.safe_bind (safe_sync hrole True (fun _ => hlock)) (fun _ s _ h => ?_)
  refine Discipline.safe_bind (safe_reconcile hrole moves (h trivial)) (fun result s _ _ => ?_)
  refine safe_free (fun _ => by trivial) (fun _ owned s _ _ => ?_) s
  split
  · exact Discipline.safe_mono (safe_sync hrole False (fun h => h.elim)) (fun _ _ _ _ => trivial)
  · exact safe_done () s

theorem safe_coordinate (hrole : t.role = .coordination) (moves : BucketMoves) (s : Shared) :
    G.discipline.Safe t (fun _ _ => True) (coordinate moves t.worker) s := by
  refine safe_free (fun _ => by trivial) (fun _ on s _ _ => ?_) s
  split
  · have hpublish : G.discipline.Safe t (fun _ _ => True) (publishLocalBucketStates t.worker) s :=
      safe_free (fun _ => by trivial) (fun _ states s _ _ =>
        safe_free (fun _ => by trivial) (fun _ _ s _ _ => safe_done () s) s) s
    exact Discipline.safe_bind hpublish (fun _ s _ _ => safe_acquire hrole moves s)
  · exact safe_acquire hrole moves s

theorem safe_releaseBuckets (hrole : t.role = .shutdown) (rest : List BucketModel) (hn : (rest.map (·.id)).Nodup)
    (h : s.lock = some t ∧ G.yielded s t.worker ∧ ∀ r ∈ rest, s.Owns t.worker r.id) :
    G.discipline.Safe t (fun _ s => G.yielded s t.worker) (releaseBuckets rest) s := by
  induction rest generalizing s with
  | nil => exact Discipline.safe_ret stable_yielded h.2.1 (fun _ _ h => h)
  | cons bucket rest ih =>
    obtain ⟨hnot, hn'⟩ := List.nodup_cons.mp hn
    refine Discipline.safe_perform (A := fun s => s.lock = some t ∧ G.yielded s t.worker ∧
        ∀ r ∈ bucket :: rest, s.Owns t.worker r.id)
      (fun s s' _ hr h => ⟨Rely.lock hr h.1, Rely.yielded hr _ h.2.1, fun r hin => ?_⟩) h
      (fun s _ h => ⟨h.1, fun w hw => (by cases hw), fun r hr => ?_⟩) ?_
    · obtain ⟨x, hx, ho⟩ := h.2.2 r hin
      obtain ⟨x', hx', hs⟩ := (Rely.kept hr h.1).forth _ _ hx
      exact ⟨x', hx', hs.owner.trans ho⟩
    · obtain ⟨x, hx, ho⟩ := h.2.2 bucket List.mem_cons_self
      obtain rfl := Option.some.inj (hr.symm.trans hx)
      rw [hrole]
      exact ⟨ho, rfl, h.2.1⟩
    · rintro s - h _ s' he
      cases he
      refine ih hn' ⟨h.1, G.yielded_frame h.2.1 rfl rfl rfl, fun r hin => ?_⟩
      obtain ⟨x, hx, ho⟩ := h.2.2 r (List.mem_cons_of_mem _ hin)
      have hne : r.id ≠ bucket.id := fun e => hnot (List.mem_map.mpr ⟨r, hin, e⟩)
      exact ⟨x, (Buckets.get?_updateOne_other _ hne _ _).trans hx, ho⟩

theorem safe_release (hrole : t.role = .shutdown) (h : G.yielded s t.worker) :
    G.discipline.Safe t (fun _ _ => True) (release t.worker) s := by
  refine Discipline.safe_perform stable_yielded h (fun _ _ _ => by trivial) ?_
  rintro s - h _ s' he
  have hlock : s'.lock = some t ∧ G.yielded s' t.worker := by
    simp only [discipline, Shared.execute] at he
    split at he <;> cases he
    exact ⟨rfl, G.yielded_frame h rfl rfl rfl⟩
  refine Discipline.safe_perform (A := fun s => s.lock = some t ∧ G.yielded s t.worker)
    (fun _ _ _ hr h => ⟨Rely.lock hr h.1, Rely.yielded hr _ h.2⟩) hlock (fun _ _ _ => by trivial) ?_
  rintro s - h buckets s' he
  cases he
  refine Discipline.safe_bind (safe_releaseBuckets hrole _ ?_ ⟨h.1, h.2, fun r hr => ?_⟩) (fun _ s _ h => ?_)
  · exact s.db.buckets.nodup.sublist (List.filter_sublist.map _)
  · obtain ⟨hmem, ho⟩ := List.mem_filter.mp hr
    exact ⟨r, Buckets.get?_of_mem hmem, by simpa using ho⟩
  · refine Discipline.safe_perform stable_yielded h (fun _ _ h => ⟨hrole, rfl, h⟩) ?_
    rintro s - h _ s' he
    exact safe_free (fun _ => by trivial) (fun _ _ s _ _ => safe_done () s) s'

end Regime

end Linksurf
