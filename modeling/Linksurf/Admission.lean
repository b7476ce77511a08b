import Linksurf.Store

/-!
# URLs are admitted once

A payload is alive from its `put` to its report. A document can be listed again
until its `start_crawl` is stored, so the payloads of one hash stay at most one
as long as a domain's documents are listed only while none of its payloads
waits for that write.
-/
namespace Linksurf

open Monitor Execution

/-! ## Payloads alive -/

def Payload.isFor (p : Payload) (hash : String) : Bool := p.url.hash = hash

/-- The payload whose fetch has not started. -/
def Pc.unfetched? : Pc → Option Payload
  | .handed p _ | .started p _ | .domainLock p _ => some p
  | _ => none

/-- The payload being fetched or reported. -/
def Pc.inFetch? : Pc → Option Payload
  | .fetching p _ | .reporting p _ _ => some p
  | _ => none

/-- The queued payloads of a hash. -/
def BackQueue.queuedFor (q : BackQueue) (hash : String) : Nat :=
  q.queues.total (fun ps => ps.countP (·.isFor hash))

def Node.unfetched (n : Node) (hash : String) : Nat :=
  n.queue.queuedFor hash + n.tasks.pcs.countP (fun pc => pc.unfetched?.any (·.isFor hash))

def Node.inFetch (n : Node) (hash : String) : Nat :=
  n.tasks.pcs.countP (fun pc => pc.inFetch?.any (·.isFor hash))

/-- The payloads of a hash from their `put` to their report. -/
def Node.alive (n : Node) (hash : String) : Nat := n.unfetched hash + n.inFetch hash

/-- Payloads of one hash are never alive twice, and no hash is fetched twice. -/
def Crawler.AdmittedOnce (s : Crawler) : Prop := (∀ hash, s.node.alive hash ≤ 1) ∧ s.fetched.Nodup

/-- Registered addresses parse back, and the documents of a domain are listed
while no payload of it waits for its `start_crawl`. -/
def StoredFirst (lib : Externals) (s : Crawler) : CrawlerAction → Prop
  | .register url priority => (UrlModel.ofUrl lib url priority).Reparses lib
  | .node (.run task (.urls _)) => ∀ caller domain, s.node.tasks.pcs[task]? = some (.domainUrls caller domain) →
    ∀ p l, .handed p l ∈ s.node.tasks.pcs → p.url.domain ≠ domain
  | _ => True

section

variable {lib : Externals} {locked : LockId → Bool} {now : Time} {q : BackQueue} {pc : Pc}
  {reply : Reply} {a : Advance} {n n' : Node} {hash : String}

def BackQueue.Holds (q : BackQueue) (p : Payload) : Prop := ∃ e ∈ q.queues.entries, p ∈ e.2

/-- The payload is queued, or handed out and not being fetched. -/
def Node.Unfetched (n : Node) (p : Payload) : Prop :=
  n.queue.Holds p ∨ ∃ pc ∈ n.tasks.pcs, pc.unfetched? = some p

/-- A hash nobody holds an unfetched payload of. -/
theorem unfetched_eq_zero (h : ∀ p, n.Unfetched p → p.url.hash ≠ hash) : n.unfetched hash = 0 := by
  rw [Node.unfetched, Nat.add_eq_zero_iff]
  constructor
  · refine List.sum_eq_zero_iff_forall_eq_nat.mpr (fun x hx => ?_)
    obtain ⟨e, he, rfl⟩ := List.mem_map.mp hx
    refine List.countP_eq_zero.mpr (fun p hp => ?_)
    simpa [Payload.isFor] using h p (.inl ⟨e, he, hp⟩)
  · refine List.countP_eq_zero.mpr (fun pc hpc => ?_)
    cases hp : pc.unfetched? with
    | none => simp
    | some p => simpa [Payload.isFor] using h p (.inr ⟨pc, hpc, hp⟩)

theorem queuedFor_set (hash : String) (q : BackQueue) (domain : String) (ps : List Payload) (q' : BackQueue)
    (h : q'.queues = q.queues.set domain ps) : q'.queuedFor hash +
      ((q.queues.get? domain).getD []).countP (·.isFor hash) = q.queuedFor hash + ps.countP (·.isFor hash) := by
  have hset := Dicts.Dict.total_set (fun ps : List Payload => ps.countP (·.isFor hash)) q.queues domain ps
  have hat : Dicts.Dict.at? (fun ps : List Payload => ps.countP (·.isFor hash)) q.queues domain =
      ((q.queues.get? domain).getD []).countP (·.isFor hash) := by
    rw [Dicts.Dict.at?]
    cases q.queues.get? domain <;> rfl
  rw [hat] at hset
  rw [BackQueue.queuedFor, h]
  exact hset

theorem queuedFor_put (hash : String) (q : BackQueue) (p : Payload) : (q.put p).queuedFor hash =
    q.queuedFor hash + if p.isFor hash then 1 else 0 := by
  have h := queuedFor_set hash q _ _ (q.put p) (put_queues q p)
  rw [List.countP_append, List.countP_singleton] at h
  omega

theorem queuedFor_take (lib : Externals) (hash : String) {domain : String} {p : Payload} {rest : List Payload} {lock : LockId}
    (h : q.scan now locked = .found domain p rest lock) :
    (q.take lib now domain rest).queuedFor hash + (if p.isFor hash then 1 else 0) = q.queuedFor hash := by
  have hset := queuedFor_set hash q domain rest (q.take lib now domain rest) rfl
  rw [Dicts.Dict.get?_eq_some_iff.mpr (scan_found h).1, Option.getD_some, List.countP_cons] at hset
  omega

theorem queuedFor_removeDomain (domain : String) : (q.removeDomain domain).queuedFor hash ≤ q.queuedFor hash := by
  have h := Dicts.Dict.total_erase (fun ps : List Payload => ps.countP (·.isFor hash)) q.queues domain
  exact Nat.le.intro h

/-! ## What a step does to the counts -/

/-- What a point counts for among the unfetched payloads of a hash. -/
def Pc.one (pc : Pc) (hash : String) : Nat := if pc.unfetched?.any (·.isFor hash) then 1 else 0

theorem Pc.idle_one (h : pc.idle) : pc.one hash = 0 := by
  cases pc <;> simp_all [Pc.idle, Pc.one, Pc.unfetched?]

theorem Pc.enqueuing_one (h : pc.enqueuing) : pc.one hash = 0 := by
  cases pc <;> simp_all [Pc.enqueuing, Pc.one, Pc.unfetched?]

/-- The step puts a payload of the hash. -/
def Puts (lib : Externals) (pc : Pc) (hash : String) : Prop :=
  ∃ caller u urls url, pc = .putting caller (u :: urls) ∧ lib.url u.address = some url ∧ url.hash = hash

/-- Unfetched payloads and started fetches of a hash together grow by one `put`
and by nothing else. -/
theorem effect_unfetched (h : Effect lib locked now q pc reply a) (hash : String) :
    a.queue.queuedFor hash + a.pc.one hash + pc.fetches.count hash ≤ q.queuedFor hash + pc.one hash ∨
    (Puts lib pc hash ∧ pc.fetches = [] ∧
      a.queue.queuedFor hash + a.pc.one hash = q.queuedFor hash + pc.one hash + 1) := by
  cases h with
  | @idle pc _ _ h h' =>
    left
    rw [Pc.idle_one h, Pc.idle_one h']
    cases pc <;> simp_all [Pc.idle, Pc.fetches]
  | @enter pc _ h _ _ =>
    left
    rw [Pc.idle_one h]
    cases pc <;> simp_all [Pc.idle, Pc.fetches, Pc.one, Pc.unfetched?]
  | @leave pc _ _ h h' =>
    left
    rw [Pc.enqueuing_one h, Pc.idle_one h']
    cases pc <;> simp_all [Pc.enqueuing, Pc.fetches]
  | @put caller u urls url pc' hurl hpc =>
    have hzero : pc'.one hash = 0 := by subst hpc; split <;> rfl
    have hput := queuedFor_put hash q ⟨url, u.priority⟩
    by_cases hfor : url.hash = hash
    · refine .inr ⟨⟨caller, u, urls, url, rfl, hurl, hfor⟩, rfl, ?_⟩
      simp only [Payload.isFor, hfor, decide_true, if_true] at hput
      rw [hzero, hput]
      rfl
    · left
      simp only [Payload.isFor, hfor, decide_false, Bool.false_eq_true, if_false] at hput
      rw [hzero, hput]
      rfl
  | @take domain p rest lock hscan =>
    left
    have htake := queuedFor_take lib hash hscan
    have hone : Pc.one (.handed p lock) hash = if p.isFor hash then 1 else 0 := rfl
    change (q.take lib now domain rest).queuedFor hash + Pc.one (.handed p lock) hash + 0 ≤ _ + 0
    omega
  | @fetch p lock =>
    left
    change _ + 0 + [p.url.hash].count hash ≤ _ + if p.isFor hash then 1 else 0
    simp only [List.count_singleton, Payload.isFor, beq_iff_eq, decide_eq_true_eq]
    omega
  | removeDomain =>
    left
    exact Nat.add_le_add_right (queuedFor_removeDomain _) _
  | abandoned => exact .inl (Nat.add_le_add_left (Nat.zero_le _) _)
  | _ => exact .inl (le_refl _)

theorem effect_inFetch (h : Effect lib locked now q pc reply a) (hash : String) :
    (if a.pc.inFetch?.any (·.isFor hash) then 1 else 0) ≤
      (if pc.inFetch?.any (·.isFor hash) then 1 else 0) + pc.fetches.count hash := by
  cases h with
  | @idle _ _ pc' _ h' => cases pc' <;> simp_all [Pc.idle, Pc.inFetch?]
  | @leave _ _ pc' _ h' => cases pc' <;> simp_all [Pc.idle, Pc.inFetch?]
  | put _ hpc => subst hpc; dsimp only; split <;> simp [Pc.inFetch?]
  | fetch => simp [Pc.inFetch?, Pc.fetches, Payload.isFor, List.count_singleton]
  | fetched => exact Nat.le_add_right _ _
  | _ => simp [Pc.inFetch?]

/-- An unfetched payload was one before the step, or was just put. -/
theorem effect_holds (h : Effect lib locked now q pc reply a) {p : Payload}
    (ha : a.queue.Holds p ∨ a.pc.unfetched? = some p) : q.Holds p ∨ pc.unfetched? = some p ∨
      ∃ caller u urls url, pc = .putting caller (u :: urls) ∧ lib.url u.address = some url ∧ p.url = url := by
  cases h with
  | @idle _ _ pc' _ h' =>
    refine .inl (ha.resolve_right ?_)
    cases pc' <;> simp_all [Pc.idle, Pc.unfetched?]
  | @leave _ _ pc' _ h' =>
    refine .inl (ha.resolve_right ?_)
    cases pc' <;> simp_all [Pc.idle, Pc.unfetched?]
  | put hurl hpc =>
    rcases ha with ⟨e, he, hp⟩ | ha
    · rcases mem_put he with he | ⟨-, hall⟩
      · exact .inl ⟨e, he, hp⟩
      · rcases hall p hp with rfl | ⟨old, hold, hp⟩
        · exact .inr (.inr ⟨_, _, _, _, rfl, hurl, rfl⟩)
        · exact .inl ⟨_, hold, hp⟩
    · subst hpc
      dsimp only at ha
      split at ha <;> cases ha
  | take hscan =>
    rcases ha with ⟨e, he, hp⟩ | ha
    · rcases mem_take he with he | rfl
      · exact .inl ⟨e, he, hp⟩
      · exact .inl ⟨_, (scan_found hscan).1, List.mem_cons_of_mem _ hp⟩
    · obtain rfl := Option.some.inj ha
      exact .inl ⟨_, (scan_found hscan).1, List.mem_cons_self⟩
  | removeDomain =>
    rcases ha with ⟨e, he, hp⟩ | ha
    · exact .inl ⟨e, List.mem_of_mem_filter he, hp⟩
    · cases ha
  | stored | queued => exact ha.imp_right .inl
  | _ =>
    rcases ha with ha | ha
    · exact .inl ha
    · cases ha

theorem unfetched_ran {task : TaskId} (h : Ran lib n task reply pc a n') (hash : String) :
    n'.unfetched hash + (n.queue.queuedFor hash + pc.one hash) =
      n.unfetched hash + (a.queue.queuedFor hash + a.pc.one hash) := by
  have hcount := h.countP (fun pc => pc.unfetched?.any (·.isFor hash)) (fun _ => rfl)
  unfold Node.unfetched Pc.one
  rw [h.queue]
  omega

theorem inFetch_ran {task : TaskId} (h : Ran lib n task reply pc a n') (hash : String) :
    n'.inFetch hash ≤ n.inFetch hash + pc.fetches.count hash := by
  have hcount := h.countP (fun pc => pc.inFetch?.any (·.isFor hash)) (fun _ => rfl)
  have hone := effect_inFetch h.effect hash
  unfold Node.inFetch
  omega

/-! ## The invariant -/

/-- Documents about to be put: they are known, and none has an unfetched payload
or was fetched. -/
structure Listed (lib : Externals) (s : Crawler) (urls : List UrlModel) : Prop where
  nodup : (urls.map (·.hash)).Nodup
  reparses : ∀ u ∈ urls, u.Reparses lib
  known : ∀ u ∈ urls, ∃ doc ∈ s.urls, doc.hash = u.hash ∧ doc.domain = u.domain
  fresh : ∀ u ∈ urls, s.node.unfetched u.hash + s.fetched.count u.hash = 0

/-- What an enqueue in progress knows about the active domains. -/
def Pending (lib : Externals) (s : Crawler) : Pc → Prop
  | .excludedDomains _ current => ∀ d ∈ s.node.queue.queues.keys, d ∈ current
  | .distinctDomains _ excluded _ => ∀ d ∈ s.node.queue.queues.keys, d ∈ excluded
  | .domainUrls _ domain => domain ∉ s.node.queue.queues.keys
  | .putting _ urls => Listed lib s urls
  | .domainReleaseTime _ _ urls => Listed lib s urls
  | _ => True

/-- The payload whose `start_crawl` is stored. -/
def Pc.stored? : Pc → Option Payload
  | .started p _ | .domainLock p _ => some p
  | _ => none

structure Admitted (lib : Externals) (s : Crawler) : Prop where
  hashes : (s.urls.map (·.hash)).Nodup
  reparses : ∀ u ∈ s.urls, u.Reparses lib
  known : ∀ p, s.node.Unfetched p → ∃ u ∈ s.urls, u.hash = p.url.hash ∧ u.domain = p.url.domain
  stored : ∀ pc ∈ s.node.tasks.pcs, ∀ p, pc.stored? = some p → Counted s.urls p.url.hash
  fetched : ∀ h ∈ s.fetched, Counted s.urls h
  once : ∀ h, s.node.unfetched h + s.fetched.count h ≤ 1
  inFetch : ∀ h, s.node.inFetch h ≤ s.fetched.count h
  pending : ∀ pc ∈ s.node.tasks.pcs, Pending lib s pc

theorem Admitted.admittedOnce {s : Crawler} (h : Admitted lib s) : s.AdmittedOnce := by
  refine ⟨fun hash => ?_, List.nodup_iff_count_le_one.mpr (fun hash => ?_)⟩
  · have := h.once hash
    have := h.inFetch hash
    unfold Node.alive
    omega
  · have := h.once hash
    omega

/-- A listing of a domain without queued payloads and without payloads waiting
for `start_crawl` has only fresh documents. -/
theorem Admitted.listed {s : Crawler} (h : Admitted lib s) (hk : s.node.queue.Keyed) {domain : String}
    {snapshot : List UrlModel} (hperm : snapshot.Perm s.urls) (hactive : domain ∉ s.node.queue.queues.keys)
    (hhanded : ∀ p l, .handed p l ∈ s.node.tasks.pcs → p.url.domain ≠ domain) (limit : Nat) :
    Listed lib s (getDomainUrls snapshot domain limit) := by
  have hmem : ∀ u ∈ getDomainUrls snapshot domain limit, u ∈ s.urls ∧ u.domain = domain ∧ u.crawls = 0 :=
    fun u hu => (mem_getDomainUrls hu).imp_left (hperm.mem_iff.mp ·)
  refine ⟨nodup_getDomainUrls hperm h.hashes _ _, fun u hu => h.reparses u (hmem u hu).1,
    fun u hu => ⟨u, (hmem u hu).1, rfl, rfl⟩, fun u hu => ?_⟩
  obtain ⟨hin, hdom, hzero⟩ := hmem u hu
  have huncounted : ¬ Counted s.urls u.hash := fun hc => by
    have := hc.2 u hin rfl
    omega
  rw [Nat.add_eq_zero_iff]
  refine ⟨unfetched_eq_zero (fun p hp hhash => ?_), List.count_eq_zero.mpr (fun hf => huncounted (h.fetched _ hf))⟩
  obtain ⟨doc, hdoc, hdh, hdd⟩ := h.known p hp
  obtain rfl : doc = u := List.inj_on_of_nodup_map h.hashes hdoc hin (hdh.trans hhash)
  rcases hp with ⟨e, he, hpe⟩ | ⟨pc, hpc, hp⟩
  · refine hactive (hdom ▸ hdd ▸ ?_)
    rw [hk e he p hpe]
    exact List.mem_map_of_mem he
  · cases pc with
    | handed p' l =>
      obtain rfl := Option.some.inj hp
      exact hhanded _ l hpc (hdd.symm.trans hdom)
    | started p' l =>
      obtain rfl := Option.some.inj hp
      exact huncounted (hhash ▸ h.stored _ hpc _ rfl)
    | domainLock p' l =>
      obtain rfl := Option.some.inj hp
      exact huncounted (hhash ▸ h.stored _ hpc _ rfl)
    | _ => cases hp

/-- The admissions of a hash: unfetched payloads and started fetches. -/
def Crawler.weight (s : Crawler) (hash : String) : Nat := s.node.unfetched hash + s.fetched.count hash

/-- The worker after a step of a task. -/
def Crawler.after (s : Crawler) (n' : Node) (pc : Pc) (reply : Reply) : Crawler :=
  ⟨n', s.written pc reply, s.fetched ++ pc.fetches⟩

theorem weight_ran {s : Crawler} {task : TaskId} (h : Ran lib s.node task reply pc a n') (hash : String) :
    (s.after n' pc reply).weight hash ≤ s.weight hash ∨
      (Puts lib pc hash ∧ (s.after n' pc reply).weight hash = s.weight hash + 1) := by
  have hcount := unfetched_ran h hash
  unfold Crawler.weight Crawler.after
  simp only [List.count_append]
  rcases effect_unfetched h.effect hash with he | ⟨hputs, hnone, he⟩
  · left; omega
  · right
    refine ⟨hputs, ?_⟩
    rw [hnone, List.count_nil]
    omega

/-- Outside the general lock nothing is queued or removed. -/
theorem effect_outside (h : Effect lib locked now q pc reply a) (hout : LockName.general ∉ pc.region) :
    a.queue.queues = q.queues ∧ ∀ hash, ¬ Puts lib pc hash := by
  refine ⟨?_, ?_⟩
  · cases h with
    | put | take | removeDomain => exact absurd hout (by simp [Pc.region])
    | _ => rfl
  · rintro hash ⟨caller, u, urls, url, rfl, -⟩
    exact hout (by simp [Pc.region])

theorem pending_inside (lib : Externals) (pc : Pc) : (∀ s, Pending lib s pc) ∨ LockName.general ∈ pc.inside := by
  cases pc <;> simp [Pending, Pc.inside]

theorem Listed.url {s : Crawler} {u : UrlModel} {urls : List UrlModel} {url : Url} (h : Listed lib s (u :: urls))
    (hurl : lib.url u.address = some url) : url.hash = u.hash ∧ url.domain = u.domain := by
  obtain ⟨url', hurl', hh, hd⟩ := h.reparses u List.mem_cons_self
  obtain rfl := Option.some.inj (hurl.symm.trans hurl')
  exact ⟨hh, hd⟩

theorem Listed.mono {s s' : Crawler} {urls : List UrlModel} (h : Listed lib s urls)
    (hgrown : Grown lib s.urls s'.urls) (hweight : ∀ u ∈ urls, s'.weight u.hash ≤ s.weight u.hash) :
    Listed lib s' urls where
  nodup := h.nodup
  reparses := h.reparses
  known u hu := by
    obtain ⟨doc, hdoc, hh, hd⟩ := h.known u hu
    obtain ⟨doc', hdoc', hh', hd'⟩ := hgrown.kept doc hdoc
    exact ⟨doc', hdoc', hh'.trans hh, hd'.trans hd⟩
  fresh u hu := Nat.le_zero.mp ((hweight u hu).trans (le_of_eq (h.fresh u hu)))

theorem Pending.mono {s s' : Crawler} (h : Pending lib s pc) (hgrown : Grown lib s.urls s'.urls)
    (hqueues : s'.node.queue.queues = s.node.queue.queues) (hweight : ∀ hash, s'.weight hash ≤ s.weight hash) :
    Pending lib s' pc := by
  cases pc with
  | excludedDomains _ _ => intro d hd; rw [hqueues] at hd; exact h d hd
  | distinctDomains _ _ _ => intro d hd; rw [hqueues] at hd; exact h d hd
  | domainUrls _ _ => intro hd; rw [hqueues] at hd; exact h hd
  | putting _ _ => exact Listed.mono h hgrown (fun u _ => hweight u.hash)
  | domainReleaseTime _ _ _ => exact Listed.mono h hgrown (fun u _ => hweight u.hash)
  | _ => trivial

theorem Listed.tail {s s' : Crawler} {u : UrlModel} {urls : List UrlModel} (h : Listed lib s (u :: urls))
    (hgrown : Grown lib s.urls s'.urls)
    (hweight : ∀ hash, hash ≠ u.hash → s'.weight hash ≤ s.weight hash) : Listed lib s' urls := by
  obtain ⟨hnot, hn⟩ := List.nodup_cons.mp h.nodup
  have htail : Listed lib s urls := ⟨hn, fun x hx => h.reparses x (List.mem_cons_of_mem _ hx),
    fun x hx => h.known x (List.mem_cons_of_mem _ hx), fun x hx => h.fresh x (List.mem_cons_of_mem _ hx)⟩
  exact htail.mono hgrown (fun x hx => hweight _ (fun he => hnot (List.mem_map.mpr ⟨x, hx, he⟩)))

/-- The task that ran knows what it learnt. -/
theorem pending_self {s : Crawler} (h : Admitted lib s) (hk : s.node.queue.Keyed) {task : TaskId}
    (hran : Ran lib s.node task reply pc a n') (hans : s.answers pc reply = true)
    (hcond : StoredFirst lib s (.node (.run task reply))) : Pending lib (s.after n' pc reply) a.pc := by
  have hpc := h.pending pc (List.mem_of_getElem? hran.at_pc)
  have hat := hran.at_pc
  have hgrown : Grown lib s.urls (s.after n' pc reply).urls := grown_written s pc reply
  have hweight := fun hash => weight_ran (s := s) hran hash
  have hqueue := hran.queue
  have hkeys : (s.after n' pc reply).node.queue = a.queue := hqueue
  generalize hs' : s.after n' pc reply = s' at *
  cases hran.effect with
  | @idle _ _ pc' _ h' => cases pc' <;> trivial
  | @leave _ _ pc' _ h' => cases pc' <;> trivial
  | current => intro d hd; rwa [hkeys] at hd
  | fetchable excluded => intro d hd; rw [hkeys] at hd; exact List.mem_append_left _ (hpc d hd)
  | chosen hchosen =>
    intro hd
    rw [hkeys] at hd
    exact (mem_getDistinctDomains hchosen).1 (hpc _ hd)
  | @listed caller domain snapshot =>
    have hlisted := h.listed hk (List.isPerm_iff.mp hans) hpc (fun p l hp => hcond caller domain hat p l hp) MAX_URLS_PER_DOMAIN
    refine hlisted.mono hgrown (fun u _ => ?_)
    exact (hweight u.hash).elim id (fun hp => by obtain ⟨⟨_, _, _, _, he, _⟩, _⟩ := hp; cases he)
  | @put caller u urls url pc' hurl hpc' =>
    have htail : Listed lib s' urls := by
      refine Listed.tail hpc hgrown (fun hash hne => ?_)
      refine (hweight hash).resolve_right (fun ⟨⟨_, _, _, _, he, hurl', hh⟩, _⟩ => ?_)
      cases he
      exact hne (hh.symm.trans (Listed.url hpc hurl').1)
    subst hpc'
    dsimp only
    split <;> exact htail
  | lookedUp =>
    refine Listed.mono hpc hgrown (fun u _ => ?_)
    exact (hweight u.hash).elim id (fun hp => by obtain ⟨⟨_, _, _, _, he, _⟩, _⟩ := hp; cases he)
  | _ => trivial

/-- A task with a stored payload had it, or its `start_crawl` was just stored. -/
theorem effect_stored (h : Effect lib locked now q pc reply a) {p : Payload} (ha : a.pc.stored? = some p) :
    pc.stored? = some p ∨ (reply = .done ∧ ∃ l, pc = .handed p l) := by
  cases h with
  | @idle _ _ pc' _ h' => cases pc' <;> simp_all [Pc.idle, Pc.stored?]
  | @leave _ _ pc' _ h' => cases pc' <;> simp_all [Pc.idle, Pc.stored?]
  | put _ hpc => subst hpc; dsimp only at ha; split at ha <;> cases ha
  | @stored payload lock =>
    obtain rfl := Option.some.inj ha
    exact .inr ⟨rfl, lock, rfl⟩
  | queued => exact .inl ha
  | _ => cases ha

/-- An unfetched payload was one before the step, or its document was just put. -/
theorem unfetched_before {task : TaskId} (h : Ran lib n task reply pc a n') {p : Payload} (hp : n'.Unfetched p) :
    n.Unfetched p ∨
      ∃ caller u urls url, pc = .putting caller (u :: urls) ∧ lib.url u.address = some url ∧ p.url = url := by
  have hmem := List.mem_of_getElem? h.at_pc
  have hback (ha : a.queue.Holds p ∨ a.pc.unfetched? = some p) : n.Unfetched p ∨
      ∃ caller u urls url, pc = .putting caller (u :: urls) ∧ lib.url u.address = some url ∧ p.url = url := by
    obtain hold | hold | hput := effect_holds h.effect ha
    · exact .inl (.inl hold)
    · exact .inl (.inr ⟨pc, hmem, hold⟩)
    · exact .inr hput
  cases hp with
  | inl hqueue => exact hback (.inl (h.queue ▸ hqueue))
  | inr htask =>
    obtain ⟨pc', hpc', hp⟩ := htask
    obtain rfl | hold | ⟨d, rfl⟩ := h.mem_pcs hpc'
    · exact hback (.inr hp)
    · exact .inl (.inr ⟨pc', hold, hp⟩)
    · cases hp

/-- What another task knows stays: documents are put and payloads removed under
the general lock only. -/
theorem pending_other {s : Crawler} (h : Admitted lib s) (hd : s.node.Disciplined) {task u : TaskId}
    (hran : Ran lib s.node task reply pc a n') {p : Pc} (hu : s.node.tasks.pcs[u]? = some p) (hne : u ≠ task) :
    Pending lib (s.after n' pc reply) p := by
  obtain hall | hin := pending_inside lib p
  · exact hall _
  · -- this enqueue is in progress, so the task that ran is outside the general lock
    have hout : LockName.general ∉ pc.region := by
      intro hregion
      have hholder := hd.held u p hu .general hin
      have htask := Tasks.holder_of_entitled hran.entitled hregion
      exact hne (Option.some.inj (hholder.symm.trans htask))
    obtain ⟨hqueues, hputs⟩ := effect_outside hran.effect hout
    have hweight (hash : String) : (s.after n' pc reply).weight hash ≤ s.weight hash :=
      (weight_ran hran hash).resolve_right (fun hp => hputs hash hp.1)
    refine (h.pending p (List.mem_of_getElem? hu)).mono (grown_written s pc reply) ?_ hweight
    change n'.queue.queues = _
    rw [hran.queue, hqueues]

theorem Admitted.ran {s : Crawler} (h : Admitted lib s) (hs : s.node.Sound lib) {task : TaskId}
    (hran : Ran lib s.node task reply pc a n') (hans : s.answers pc reply = true)
    (hcond : StoredFirst lib s (.node (.run task reply))) : Admitted lib (s.after n' pc reply) := by
  have hmem := List.mem_of_getElem? hran.at_pc
  have hgrown : Grown lib s.urls (s.after n' pc reply).urls := grown_written s pc reply
  constructor
  · exact hgrown.nodup h.hashes
  · exact hgrown.reparses h.reparses
  · intro p hp
    have hdoc : ∃ doc ∈ s.urls, doc.hash = p.url.hash ∧ doc.domain = p.url.domain := by
      obtain hold | ⟨caller, u, urls, url, rfl, hurl, hpu⟩ := unfetched_before hran hp
      · exact h.known p hold
      · have hlisted : Listed lib s (u :: urls) := h.pending _ hmem
        obtain ⟨hh, hd⟩ := hlisted.url hurl
        obtain ⟨doc, hdoc, hdh, hdd⟩ := hlisted.known u List.mem_cons_self
        exact ⟨doc, hdoc, by rw [hdh, hpu, hh], by rw [hdd, hpu, hd]⟩
    obtain ⟨doc, hdoc, hh, hd⟩ := hdoc
    obtain ⟨doc', hdoc', hh', hd'⟩ := hgrown.kept doc hdoc
    exact ⟨doc', hdoc', hh'.trans hh, hd'.trans hd⟩
  · intro pc' hpc' p hp
    obtain rfl | hold | ⟨d, rfl⟩ := hran.mem_pcs hpc'
    · rcases effect_stored hran.effect hp with hold | ⟨rfl, l, rfl⟩
      · exact hgrown.counted (h.stored pc hmem p hold)
      · change (startCrawl p.url.hash s.urls).isSome at hans
        obtain ⟨urls, hurls⟩ := Option.isSome_iff_exists.mp hans
        change Counted ((startCrawl p.url.hash s.urls).getD s.urls) p.url.hash
        rw [hurls]
        exact startCrawl_counted hurls h.hashes
    · exact hgrown.counted (h.stored pc' hold p hp)
    · cases hp
  · intro hash hin
    rcases List.mem_append.mp hin with hin | hin
    · exact hgrown.counted (h.fetched hash hin)
    · cases pc with
      | domainLock p l =>
        rw [List.mem_singleton.mp hin]
        exact hgrown.counted (h.stored _ hmem p rfl)
      | _ => cases hin
  · intro hash
    rcases weight_ran (s := s) hran hash with hle | ⟨⟨caller, u, urls, url, rfl, hurl, hh⟩, hone⟩
    · exact hle.trans (h.once hash)
    · have hlisted : Listed lib s (u :: urls) := h.pending _ hmem
      obtain ⟨hh', -⟩ := hlisted.url hurl
      have hzero : s.weight hash = 0 := hh ▸ hh' ▸ hlisted.fresh u List.mem_cons_self
      rw [hzero] at hone
      exact le_of_eq hone
  · intro hash
    have hle := inFetch_ran hran hash
    have hold := h.inFetch hash
    change n'.inFetch hash ≤ (s.fetched ++ pc.fetches).count hash
    rw [List.count_append]
    omega
  · intro pc' hpc'
    obtain ⟨u, hu⟩ := List.getElem?_of_mem hpc'
    obtain ⟨-, rfl⟩ | ⟨hne, hu⟩ | ⟨d, rfl⟩ := hran.pcs hu
    · exact pending_self h hs.keyed hran hans hcond
    · exact pending_other h hs.disciplined hran hu hne
    · trivial

theorem Admitted.grown {s : Crawler} (h : Admitted lib s) {urls : List UrlModel} (hg : Grown lib s.urls urls) :
    Admitted lib { s with urls } where
  hashes := hg.nodup h.hashes
  reparses := hg.reparses h.reparses
  known p hp := by
    obtain ⟨doc, hdoc, hh, hd⟩ := h.known p hp
    obtain ⟨doc', hdoc', hh', hd'⟩ := hg.kept doc hdoc
    exact ⟨doc', hdoc', hh'.trans hh, hd'.trans hd⟩
  stored pc hpc p hp := hg.counted (h.stored pc hpc p hp)
  fetched hash hin := hg.counted (h.fetched hash hin)
  once := h.once
  inFetch := h.inFetch
  pending pc hpc := (h.pending pc hpc).mono hg rfl (fun _ => le_refl _)

/-- Tasks created outside `report` carry nothing. -/
theorem Admitted.outside {s : Crawler} (h : Admitted lib s) (new : List Pc)
    (hnew : ∀ p ∈ new, p = .next ∨ ∃ d, p = .waitForDrain d)
    (hqueues : n'.queue.queues = s.node.queue.queues) (hpcs : n'.tasks.pcs = s.node.tasks.pcs ++ new) :
    Admitted lib { s with node := n' } := by
  have hplain : ∀ f : Pc → Option Payload, f .next = none → (∀ d, f (.waitForDrain d) = none) →
      ∀ p ∈ new, f p = none := by
    intro f hnext hwait p hp
    rcases hnew p hp with rfl | ⟨d, rfl⟩
    · exact hnext
    · exact hwait d
  have hold : ∀ f : Pc → Option Payload, f .next = none → (∀ d, f (.waitForDrain d) = none) →
      ∀ pc ∈ n'.tasks.pcs, ∀ p, f pc = some p → pc ∈ s.node.tasks.pcs := by
    intro f hnext hwait pc hpc p hp
    rw [hpcs] at hpc
    refine (List.mem_append.mp hpc).resolve_right (fun hin => ?_)
    rw [hplain f hnext hwait pc hin] at hp
    cases hp
  have hcount : ∀ f : Pc → Option Payload, f .next = none → (∀ d, f (.waitForDrain d) = none) →
      ∀ hash, n'.tasks.pcs.countP (fun pc => (f pc).any (·.isFor hash)) =
        s.node.tasks.pcs.countP (fun pc => (f pc).any (·.isFor hash)) := by
    intro f hnext hwait hash
    have hzero : new.countP (fun pc => (f pc).any (·.isFor hash)) = 0 :=
      List.countP_eq_zero.mpr (fun p hp => by simp [hplain f hnext hwait p hp])
    rw [hpcs, List.countP_append, hzero, Nat.add_zero]
  have hunfetched : ∀ hash, n'.unfetched hash = s.node.unfetched hash := by
    intro hash
    rw [Node.unfetched, hcount Pc.unfetched? rfl (fun _ => rfl), BackQueue.queuedFor, hqueues]
    rfl
  constructor
  · exact h.hashes
  · exact h.reparses
  · intro p hp
    refine h.known p (hp.imp (fun hq => ?_) (fun ⟨pc, hpc, hp⟩ => ?_))
    · unfold BackQueue.Holds at hq ⊢
      rwa [hqueues] at hq
    · exact ⟨pc, hold Pc.unfetched? rfl (fun _ => rfl) pc hpc p hp, hp⟩
  · intro pc hpc p hp
    exact h.stored pc (hold Pc.stored? rfl (fun _ => rfl) pc hpc p hp) p hp
  · exact h.fetched
  · intro hash
    change n'.unfetched hash + _ ≤ 1
    rw [hunfetched]
    exact h.once hash
  · intro hash
    change n'.inFetch hash ≤ _
    rw [Node.inFetch, hcount Pc.inFetch? rfl (fun _ => rfl)]
    exact h.inFetch hash
  · intro pc hpc
    change pc ∈ n'.tasks.pcs at hpc
    rw [hpcs] at hpc
    rcases List.mem_append.mp hpc with hpc | hpc
    · refine (h.pending pc hpc).mono (.refl _) hqueues (fun hash => ?_)
      change n'.unfetched hash + _ ≤ _
      rw [hunfetched]
      exact le_refl _
    · rcases hnew pc hpc with rfl | ⟨d, rfl⟩ <;> trivial

end

/-! ## Runs -/

theorem Admitted.step {lib : Externals} {s s' : Crawler} {action : CrawlerAction} (h : Admitted lib s)
    (hs : s.node.Sound lib) (hcond : StoredFirst lib s action) (hstep : s.step lib action = some s') :
    s'.node.Sound lib ∧ Admitted lib s' := by
  cases action with
  | register url priority => cases hstep; exact ⟨hs, h.grown (grown_registerUrl hcond)⟩
  | crawl hash =>
    obtain ⟨urls, hurls, rfl⟩ := Option.map_eq_some_iff.mp hstep
    exact ⟨hs, h.grown (grown_startCrawl hurls)⟩
  | node action =>
    cases action with
    | run task reply =>
      obtain ⟨pc, hpc, hstep⟩ := Option.bind_eq_some_iff.mp hstep
      split at hstep
      · rename_i hans
        obtain ⟨n', hn', hstep⟩ := Option.bind_eq_some_iff.mp hstep
        cases hstep
        obtain ⟨pc', a, hran⟩ := runTask_ran hn'
        obtain rfl := Option.some.inj (hpc.symm.trans hran.at_pc)
        exact ⟨hs.step (.ran hran), h.ran hs hran hans hcond⟩
      · cases hstep
    | tick now =>
      obtain ⟨n', hn', hstep⟩ := Option.bind_eq_some_iff.mp hstep
      cases hstep
      refine ⟨hs.step (step_stepped hn'), ?_⟩
      simp only [Node.step] at hn'
      split at hn' <;> cases hn'
      exact h.outside [] (by simp) rfl (List.append_nil _).symm
    | waitForDrain timeout =>
      obtain ⟨n', hn', hstep⟩ := Option.bind_eq_some_iff.mp hstep
      cases hstep
      refine ⟨hs.step (step_stepped hn'), ?_⟩
      simp only [Node.step] at hn'
      split at hn' <;> cases hn'
      exact h.outside [.waitForDrain _] (by simp) rfl rfl
    | loop =>
      cases hstep
      exact ⟨hs.step (.looped rfl), h.outside [.next] (by simp) rfl rfl⟩
    | grant lock =>
      cases hstep
      exact ⟨hs.step (.granted lock rfl), h.outside [] (by simp) rfl (List.append_nil _).symm⟩
    | drain =>
      cases hstep
      exact ⟨hs.step (@step_stepped lib _ _ .drain rfl), h.outside [] (by simp) rfl (List.append_nil _).symm⟩
    | setBuckets assignments =>
      cases hstep
      exact ⟨hs.step (@step_stepped lib _ _ (.setBuckets assignments) rfl),
        h.outside [] (by simp) rfl (List.append_nil _).symm⟩
    | setReady ready =>
      cases hstep
      exact ⟨hs.step (@step_stepped lib _ _ (.setReady ready) rfl),
        h.outside [] (by simp) rfl (List.append_nil _).symm⟩

theorem initial_admitted {lib : Externals} : Admitted lib .initial where
  hashes := List.nodup_nil
  reparses := by intro u hu; cases hu
  known := by
    rintro p (⟨e, he, -⟩ | ⟨pc, hpc, -⟩)
    · cases he
    · cases hpc
  stored := by intro pc hpc; cases hpc
  fetched := by intro h hh; cases hh
  once _ := Nat.zero_le _
  inFetch _ := Nat.le_refl _
  pending := by intro pc hpc; cases hpc

/-- In a run in which addresses parse back and a domain's documents are listed
only while no payload of it waits for `start_crawl`, no URL has two live payloads
and none is fetched twice. -/
theorem admitted_once (lib : Externals) (s : Crawler)
    (h : Reaches (Crawler.step lib) (StoredFirst lib) .initial s) : s.AdmittedOnce :=
  (h.invariant (fun s => s.node.Sound lib ∧ Admitted lib s) ⟨Node.initial_sound, initial_admitted⟩
    (fun _ _ _ hs hcond hstep => hs.2.step hs.1 hcond hstep)).2.admittedOnce

/-- A test that implies `StoredFirst`: addresses parse to the URL registered and
nothing is listed while any payload waits for `start_crawl`. -/
def listedAlone (lib : Externals) (s : Crawler) : CrawlerAction → Bool
  | .register url _ => lib.url url.address = some url
  | .node (.run _ (.urls _)) => s.node.tasks.pcs.all (fun pc => match pc with
    | .handed _ _ => false
    | _ => true)
  | _ => true

theorem storedFirst_of_listedAlone (lib : Externals) (s : Crawler) (action : CrawlerAction)
    (h : listedAlone lib s action = true) : StoredFirst lib s action := by
  unfold listedAlone at h
  split at h
  · rename_i url priority
    have hurl : lib.url url.address = some url := by simpa using h
    exact ⟨url, hurl, rfl, rfl⟩
  · intro caller domain _ p l hp
    simpa using List.all_eq_true.mp h _ hp
  · rename_i hregister hurls
    unfold StoredFirst
    split
    · exact absurd rfl (hregister _ _)
    · exact absurd rfl (hurls _ _)
    · trivial

/-- The calls up to the two pages of a site being queued. -/
def enqueueSite : List CrawlerAction :=
  [.register ⟨"https://site/1", "1", "site", 443⟩ 0, .register ⟨"https://site/2", "2", "site", 443⟩ 0,
    .node (.setBuckets [⟨1, .idle, some "a", none, 0⟩]), .node .loop, .node .loop,
    .node (.run 0 .done), .node (.run 0 .done), .node (.run 0 (.domains [])),
    .node (.run 0 (.urls [page1, page2])), .node (.run 0 (.urls [page1, page2])), .node (.run 0 .done),
    .node (.run 0 (.releaseTime none)), .node (.run 0 .done), .node (.run 0 .done)]

/-- Both pages of a site are queued, and the first is handed out, stored and
being fetched. -/
theorem admitted_once_site : ∃ s, Reaches (Crawler.step site) (StoredFirst site) .initial s ∧
    s.fetched = ["1"] ∧ s.AdmittedOnce := by
  obtain ⟨s, hs, hfetched⟩ := exists_reaches (Crawler.step site) .initial (listedAlone site)
    (storedFirst_of_listedAlone site)
    (enqueueSite ++ [.node .drain, .node (.run 0 .done), .node (.run 0 .done), .node (.run 0 .done),
      .node (.run 0 .done), .node (.run 0 .done)])
    (fun s => s.fetched = ["1"]) (by decide +kernel)
  exact ⟨s, hs, by simpa using hfetched, admitted_once site s hs⟩

/-- Page 1 waits for `start_crawl` while page 2 is fetched and reported; the
emptied domain is removed, page 1 is listed again, and it is queued a second time. -/
theorem page_admitted_twice :
    ¬ ∀ s, Reaches (Crawler.step site) Free .initial s → s.AdmittedOnce := by
  intro hall
  obtain ⟨s, hs, htwice⟩ := exists_reaches_free (Crawler.step site) .initial
    (enqueueSite ++
      -- the first handler takes page 1, the second page 2
      ([.run 0 .done, .run 0 .done, .run 0 (.domains []), .run 0 (.urls [page1, page2]), .run 0 .done,
        .run 0 .done, .tick 2, .run 1 .done, .run 1 .done, .run 1 (.domains []),
        .run 1 (.urls [page1, page2]), .run 1 .done, .run 1 .done,
        -- page 2 is stored, fetched and reported, and the cleanup removes the domain
        .run 1 .done, .run 1 .done, .run 1 .done, .run 1 (.fetched .empty), .run 1 .done, .run 1 .done,
        .run 2 .done, .run 2 .done, .run 2 .done, .run 2 .done, .run 2 .done, .run 2 (.domains []),
        .run 2 (.urls [page1, page2.pushCrawl]), .run 2 (.urls [page1, page2.pushCrawl]),
        .run 2 .done] : List Action).map .node)
    (fun s => 2 ≤ s.node.alive "1") (by decide +kernel)
  have hone := (hall s hs).1 "1"
  have htwo : 2 ≤ s.node.alive "1" := by simpa using htwice
  omega

end Linksurf
