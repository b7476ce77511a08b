import Linksurf.Representation

/-!
# The dictionaries between two holders of the lock

While nobody is inside the general lock the dictionaries agree, and the scan of
`next` finds what it looks up. The refill loop of `next` releases the lock
between two enqueues, so other tasks may remove domains while it runs, and it
enqueues at most that many more than there is room for.
-/
namespace Linksurf

open Monitor Execution

section

variable {lib : Externals} {s s' : Traced} {q : BackQueue}

theorem scanEntries_ne_keyError {now : Time} {locked : LockId → Bool} {entries : List (String × List Payload)}
    (h : ∀ e ∈ entries, e.1 ∈ q.releaseTimes.keys ∧ e.1 ∈ q.locks.keys) :
    q.scanEntries now locked entries ≠ .keyError := by
  induction entries with
  | nil => simp [BackQueue.scanEntries]
  | cons e entries ih =>
    obtain ⟨d, queue⟩ := e
    obtain ⟨hdated, hlocked⟩ := h _ List.mem_cons_self
    obtain ⟨time, htime⟩ := Dicts.Dict.mem_keys_iff.mp hdated
    obtain ⟨lock, hlock⟩ := Dicts.Dict.mem_keys_iff.mp hlocked
    have hrest := ih (fun e he => h e (List.mem_cons_of_mem _ he))
    simp only [BackQueue.scanEntries, htime, hlock]
    split
    · exact hrest
    · split
      · simp
      · exact hrest

/-- Nobody is putting, so every queued domain has its release time. -/
theorem Traced.Represented.releaseTimes (h : s.Represented lib) (hd : s.node.Disciplined)
    (hfree : ∀ u pc, (s.node.tasks.locks .general).holder = some u → s.node.tasks.pcs[u]? = some pc →
      LockName.general ∉ pc.inside) (d : String) (hqueued : d ∈ s.node.queue.queues.keys) :
    d ∈ s.node.queue.releaseTimes.keys := by
  apply (h.dated d hqueued).resolve_right
  rintro ⟨pc, hpc, caller, urls, rfl⟩
  obtain ⟨u, hu⟩ := List.getElem?_of_mem hpc
  have hholder := hd.held u _ hu .general (by simp [Pc.inside])
  exact hfree u _ hholder hu (by simp [Pc.inside])

end

/-- Every address is a site of its own. -/
def manySites : Externals where
  url address := some ⟨address, address, address, 443⟩
  mmh3 _ := 0

def siteName (k : Nat) : String := String.ofList (List.replicate k 'a')

def sitePage (k : Nat) : UrlModel := ⟨siteName k, siteName k, siteName k, 1, 0, 0⟩

def sitePayload (k : Nat) : Payload := ⟨⟨siteName k, siteName k, siteName k, 443⟩, 0⟩

theorem sitePage_reparses (k : Nat) : (sitePage k).Reparses manySites := ⟨_, rfl, rfl, rfl⟩

@[simp] theorem siteName_length (k : Nat) : (siteName k).length = k := by simp [siteName]

/-- A run leads to a state in which the first handler is at the point. -/
def Visits (pc : Pc) (general : Mutex) (q : BackQueue) (refills : Nat) : Prop :=
  ∃ s, Reaches (Traced.step manySites) (StoredReparse manySites) Traced.initial s ∧
    s.node.tasks.pcs[0]? = some pc ∧ s.node.tasks.locks .general = general ∧ s.node.queue = q ∧ s.refills 0 = refills

section

variable {pc : Pc} {general : Mutex} {q : BackQueue} {refills : Nat}

/-- The first handler goes on, holding the general lock or needing no lock. -/
theorem Visits.step (h : Visits pc general q refills) (reply : Reply) (q' : BackQueue) (pc' : Pc)
    (hregion : ∀ k ∈ pc.region, k = .general ∧ general.holder = some 0)
    (hreparse : ∀ snapshot, reply = .urls snapshot → ∀ u ∈ snapshot, u.Reparses manySites)
    (hadvance : ∀ locked now, advance manySites locked now q pc reply = some ⟨q', pc', []⟩) :
    Visits pc' (if LockName.general ∈ pc'.region then
        (if LockName.general ∈ pc.region then general else general.acquire 0)
      else if LockName.general ∈ pc.region then general.release else general) q' (pc.refilled pc' refills) := by
  obtain ⟨s, hs, hpc, rfl, rfl, rfl⟩ := h
  have hentitled : s.node.tasks.entitled Pc.region 0 pc = true := by
    apply List.all_eq_true.mpr
    intro k hk
    obtain ⟨rfl, hholder⟩ := hregion k hk
    exact decide_eq_true hholder
  have hnode : s.node.step manySites (.run 0 reply) =
      some { s.node with queue := q', tasks := (s.node.tasks.move Pc.region 0 pc pc').spawn [] } := by
    simp [Node.step, Node.runTask, hpc, hentitled, hadvance]
  have hpc' : ((s.node.tasks.move Pc.region 0 pc pc').spawn []).pcs[0]? = some pc' :=
    Tasks.pcs_spawn_of (Tasks.pcs_move_same hpc)
  have hstep : s.step manySites (.run 0 reply) = some (s.after 0 pc reply pc'
      { s.node with queue := q', tasks := (s.node.tasks.move Pc.region 0 pc pc').spawn [] }) := by
    simp only [Traced.step, hnode, Option.map_some, hpc, hpc']
  refine ⟨_, hs.tail (a := .run 0 reply) ?_ hstep, hpc', rfl, rfl, by simp [Traced.after]⟩
  rintro task snapshot he
  injection he with _ hreply
  exact hreparse snapshot hreply

/-- The handler is at the head of its refill loop, with `k` sites queued and one
more counted, and longer names are new. -/
def Refilled (k : Nat) : Prop :=
  ∃ q, Visits .next {} q (k + 1) ∧ q.draining = false ∧ q.fetchableBuckets = [1] ∧ q.queues.size = k ∧
    (∀ d ∈ q.queues.keys, d.length ≤ k) ∧ ∀ d ∈ q.releaseTimes.keys, d.length ≤ k

theorem getDistinctDomains_sitePage {k : Nat} {excluded : List String} (h : siteName k ∉ excluded) :
    getDistinctDomains [sitePage k] excluded [1] 1 = [siteName k] := by
  simp [getDistinctDomains, sitePage, h, List.eraseDups_cons]

theorem getDomainUrls_sitePage (k : Nat) : getDomainUrls [sitePage k] (siteName k) MAX_URLS_PER_DOMAIN = [sitePage k] := by
  simp [getDomainUrls, sitePage, MAX_URLS_PER_DOMAIN]

/-- One more enqueue of the loop. -/
theorem Refilled.step {k : Nat} (h : Refilled k) (hroom : k < MAX_ACTIVE_DOMAINS) : Refilled (k + 1) := by
  obtain ⟨q, hvisits, hopen, hfetchable, hsize, hqueues, htimes⟩ := h
  have hnew : siteName (k + 1) ∉ q.queues.keys := by
    intro hmem
    have hle := hqueues _ hmem
    rw [siteName_length] at hle
    omega
  have hundated : q.releaseTimes.get? (siteName (k + 1)) = none := by
    apply Dicts.Dict.get?_eq_none_iff.mpr
    intro hmem
    have hle := htimes _ hmem
    rw [siteName_length] at hle
    omega
  have hpage : ∀ snapshot, Reply.urls [sitePage (k + 1)] = .urls snapshot → ∀ u ∈ snapshot, u.Reparses manySites := by
    intro snapshot he u hu
    obtain rfl := Reply.urls.inj he
    rw [List.mem_singleton.mp hu]
    exact sitePage_reparses _
  -- the awaits of one call of `_enqueue_new_domain`, from the head of the loop back to it
  have h₁ := hvisits.step .done q (.enqueue .next) (by simp [Pc.region]) (by simp)
    (by simp [advance, hopen, hsize, hroom])
  have h₂ := h₁.step .done q (.excludedDomains .next q.queues.keys) (by simp [Pc.region, Mutex.acquire]) (by simp)
    (by simp [advance, hsize, hroom])
  have h₃ := h₂.step (.domains []) q (.distinctDomains .next q.queues.keys [1]) (by simp [Pc.region, Mutex.acquire])
    (by simp) (by simp [advance, hfetchable])
  have h₄ := h₃.step (.urls [sitePage (k + 1)]) q (.domainUrls .next (siteName (k + 1)))
    (by simp [Pc.region, Mutex.acquire]) hpage (by simp [advance, getDistinctDomains_sitePage hnew])
  have h₅ := h₄.step (.urls [sitePage (k + 1)]) q (.putting .next [sitePage (k + 1)])
    (by simp [Pc.region, Mutex.acquire]) hpage (by simp [advance, getDomainUrls_sitePage])
  have h₆ := h₅.step .done (q.put (sitePayload (k + 1))) (.domainReleaseTime .next (siteName (k + 1)) [])
    (by simp [Pc.region, Mutex.acquire]) (by simp)
    (by simp [advance, manySites, sitePage, sitePayload, hundated])
  have h₇ := h₆.step (.releaseTime (some 1)) ((q.put (sitePayload (k + 1))).setReleaseTime (siteName (k + 1)) 1)
    (.putting .next []) (by simp [Pc.region, Mutex.acquire]) (by simp) (by simp [advance])
  have h₈ := h₇.step .done ((q.put (sitePayload (k + 1))).setReleaseTime (siteName (k + 1)) 1) .next
    (by simp [Pc.region, Mutex.acquire]) (by simp) (by simp [advance, Caller.return])
  have hlonger (d : String) (hd : d = siteName (k + 1) ∨ d.length ≤ k) : d.length ≤ k + 1 := by
    obtain rfl | hd := hd
    · rw [siteName_length]
    · omega
  refine ⟨(q.put (sitePayload (k + 1))).setReleaseTime (siteName (k + 1)) 1,
    by simpa [Pc.region, Mutex.acquire, Mutex.release, Pc.refilled, Pc.begins] using h₈, ?_, ?_, ?_, ?_, ?_⟩
  · exact (put_draining _ _).trans hopen
  · rw [← hfetchable]
    unfold BackQueue.put
    dsimp only
    split <;> rfl
  · change (q.put (sitePayload (k + 1))).queues.size = k + 1
    rw [put_queues, Dicts.Dict.size_set]
    change (if siteName (k + 1) ∈ q.queues.keys then _ else _) = _
    rw [if_neg hnew, hsize]
  · intro d hd
    change d ∈ (q.put (sitePayload (k + 1))).queues.keys at hd
    rw [put_queues] at hd
    exact hlonger d ((Dicts.Dict.mem_keys_set.mp hd).imp_right (hqueues d))
  · intro d hd
    have hmem := Dicts.Dict.mem_keys_set.mp hd
    rw [put_releaseTimes] at hmem
    exact hlonger d (hmem.imp_right (htimes d))

end

end Linksurf
