import Linksurf.Trees

/-!
# The nearest ancestor, in whatever order

Among names without empty segments a new node adopts exactly the nodes it is
nearer to than their parents. So every node hangs off a longest stored ancestor
after every event, and where that one is unique the tree is a matter of the
names that were mentioned.
-/
namespace Linksurf.Visualization

open Dicts (Dict)
open UrlParse

/-- Every node but a root hangs off its nearest stored ancestor. -/
def Db.Tight (db : Db) : Prop :=
  ∀ n ∈ db.nodes, n.name ≠ ROOT_NODE → ∃ p, n.parentId = some p.id ∧ Nearest db n.clusterId n.name p

/-- The name is stored in the cluster of the location. -/
def Db.Stored (db : Db) (netloc : List Char) (name : Name) : Prop :=
  ∃ c ∈ db.clusters, c.name = netloc ∧ ∃ n ∈ db.nodes, n.clusterId = c.id ∧ n.name = name

/-- The names an address puts into the cluster of the location. -/
def Mentions (valid : List Char → Bool) (url netloc : List Char) (name : Name) : Prop :=
  ∃ parts own, urlsplit valid url = some parts ∧ nodeName valid url = some own ∧ parts.netloc = netloc ∧
    (name = ROOT_NODE ∨ name = own)

section

variable {db db' : Db} {n m p q : Node} {c : Cluster} {clusterId : Nat} {name : Name} {netloc : List Char}

/-! ## Nearest ancestors -/

/-- Rows that keep their names and clusters keep the nearest ancestors. -/
theorem Nearest.map (h : Nearest db clusterId name p) {f : Node → Node}
    (hkeep : ∀ m, (f m).id = m.id ∧ (f m).clusterId = m.clusterId ∧ (f m).name = m.name) :
    Nearest { db with nodes := db.nodes.map f } clusterId name (f p) where
  mem := List.mem_map_of_mem h.mem
  cluster := (hkeep p).2.1.trans h.cluster
  ancestor := (hkeep p).2.2 ▸ h.ancestor
  longest m hm hcluster hancestor := by
    obtain ⟨x, hx, rfl⟩ := List.mem_map.mp hm
    rw [(hkeep x).2.2, (hkeep p).2.2]
    exact h.longest x hx ((hkeep x).2.1.symm.trans hcluster) ((hkeep x).2.2 ▸ hancestor)

/-- A new row that is no ancestor, or no longer than the nearest one, changes
nothing. -/
theorem Nearest.concat (h : Nearest db clusterId name p) {db' : Db} (hnodes : db'.nodes = db.nodes ++ [n])
    (hfar : n.clusterId = clusterId → n.name ∈ ancestorNames name → n.name.length ≤ p.name.length) :
    Nearest db' clusterId name p where
  mem := hnodes ▸ List.mem_append_left _ h.mem
  cluster := h.cluster
  ancestor := h.ancestor
  longest m hm hcluster hancestor := by
    obtain hm | hm := List.mem_append.mp (hnodes ▸ hm)
    · exact h.longest m hm hcluster hancestor
    · obtain rfl := List.mem_singleton.mp hm
      exact hfar hcluster hancestor

/-- The rows after `f`, which keeps the trees. -/
theorem Db.Tight.map (h : db.Tight) {f : Node → Node}
    (hkeep : ∀ m, (f m).id = m.id ∧ (f m).clusterId = m.clusterId ∧ (f m).name = m.name)
    (hparent : ∀ m, (f m).parentId = m.parentId) : Db.Tight { db with nodes := db.nodes.map f } := by
  intro m hm hname
  obtain ⟨n, hn, rfl⟩ := List.mem_map.mp hm
  obtain ⟨hid, hcluster, hsame⟩ := hkeep n
  rw [hsame] at hname
  obtain ⟨p, hp, hnearest⟩ := h n hn hname
  refine ⟨f p, (hparent n).trans (hp.trans (congrArg some (hkeep p).1.symm)), ?_⟩
  rw [hcluster, hsame]
  exact hnearest.map hkeep

theorem Nearest.unique (h : db.Linked) (hproper : Proper name) (hp : Nearest db clusterId name p)
    (hq : Nearest db clusterId name q) : p = q := by
  have hlength : p.name.length = q.name.length :=
    Nat.le_antisymm (hq.longest p hp.mem hp.cluster hp.ancestor) (hp.longest q hq.mem hq.cluster hq.ancestor)
  have hname := hproper.ancestor_inj hp.ancestor hq.ancestor (h.nonempty p hp.mem) (h.nonempty q hq.mem) hlength
  exact h.eq_of_name hp.mem hq.mem (hp.cluster.trans hq.cluster.symm) hname

/-! ## A new node -/

theorem not_mem_ancestorNames_self (hname : name ≠ ROOT_NODE) : name ∉ ancestorNames name := by
  intro hmem
  obtain hroot | hlt := mem_ancestorNames hmem
  · exact hname hroot
  · omega

/-- A new node in its place, and the nodes it is nearer to than their parents
below it. -/
theorem Db.Tight.inserted (h : db.Tight) (hl : db.Linked) (hclean : ∀ m ∈ db.nodes, Clean m.name)
    (hid : n.id = db.nodes.length + 1) (hne : n.name ≠ []) (hname : n.name ≠ ROOT_NODE)
    (hparent : n.parentId = some p.id) (hp : Nearest db n.clusterId n.name p) : (db.inserted n).Tight := by
  have hkeep := adopt_keeps db n
  have hnodes : (db.inserted n).nodes = db.nodes.map (db.adopt n) ++ [n] := rfl
  intro m' hm' hmname
  obtain hm' | hm' := List.mem_append.mp hm'
  · obtain ⟨m, hm, rfl⟩ := List.mem_map.mp hm'
    rw [(hkeep m).2.2] at hmname
    obtain ⟨q, hq, hnearest⟩ := h m hm hmname
    have hmid : m.id ≠ n.id := by
      have hle := hl.node_id_le hm
      omega
    have hancestor := mem_ancestorNames_iff (hclean m hm) hne hname
    rw [(hkeep m).2.1, (hkeep m).2.2]
    by_cases ha : db.adopts n.clusterId n.name n.id m = true
    · -- the new node holds `m`, and is longer than all that held it before
      obtain ⟨q', hq', hmq', hcluster, hhead, hneq, -, hlt⟩ := (adopts_iff hl).mp ha
      obtain rfl : q' = q := hl.eq_of_id hq' hnearest.mem (Option.some.inj (hmq'.symm.trans hq))
      refine ⟨n, by rw [Db.adopt, if_pos ha], ?_⟩
      constructor
      · exact List.mem_append_right _ (List.mem_singleton_self n)
      · exact hcluster.symm
      · exact hancestor.mpr ⟨hhead, hneq⟩
      · intro x hx hxcluster hxancestor
        obtain hx | hx := List.mem_append.mp hx
        · have hle := (hnearest.map hkeep).longest x hx hxcluster hxancestor
          rw [(hkeep q').2.2] at hle
          omega
        · rw [List.mem_singleton.mp hx]
    · refine ⟨db.adopt n q, ?_, (hnearest.map hkeep).concat hnodes ?_⟩
      · rw [(hkeep q).1, Db.adopt, if_neg ha]
        exact hq
      · -- otherwise the new node would have adopted `m`
        intro hcluster hmem
        obtain ⟨hhead, hneq⟩ := hancestor.mp hmem
        rw [(hkeep q).2.2]
        by_contra hlt
        exact ha ((adopts_iff hl).mpr ⟨q, hnearest.mem, hq, hcluster.symm, hhead, hneq, hmid, by omega⟩)
  · obtain rfl := List.mem_singleton.mp hm'
    refine ⟨db.adopt m' p, hparent.trans (congrArg some (hkeep p).1.symm), (hp.map hkeep).concat hnodes ?_⟩
    intro _ hmem
    exact absurd hmem (not_mem_ancestorNames_self hname)

/-! ## Stored names -/

theorem stored_mapNodes {f : Node → Node} (hkeep : ∀ m, (f m).clusterId = m.clusterId ∧ (f m).name = m.name) :
    Db.Stored { db with nodes := db.nodes.map f } netloc name ↔ db.Stored netloc name := by
  simp [Db.Stored, hkeep]

theorem stored_addNode (hl : db.Linked) (hc : c ∈ db.clusters) (hcluster : n.clusterId = c.id) :
    (db.addNode n).Stored netloc name ↔ db.Stored netloc name ∨ (c.name = netloc ∧ n.name = name) := by
  constructor
  · rintro ⟨d, hd, hnetloc, m, hm, hmcluster, hname⟩
    obtain hm | hm := List.mem_append.mp hm
    · exact .inl ⟨d, hd, hnetloc, m, hm, hmcluster, hname⟩
    · rw [List.mem_singleton.mp hm] at hmcluster hname
      rw [hl.cluster_unique hd hc (hmcluster.symm.trans hcluster)] at hnetloc
      exact .inr ⟨hnetloc, hname⟩
  · rintro (⟨d, hd, hnetloc, m, hm, hstored⟩ | ⟨hnetloc, hname⟩)
    · exact ⟨d, hd, hnetloc, m, List.mem_append_left _ hm, hstored⟩
    · exact ⟨c, hc, hnetloc, n, List.mem_append_right _ (List.mem_singleton_self n), hcluster, hname⟩

/-- A cluster without nodes stores nothing. -/
theorem stored_addCluster (hl : db.Linked) (location : List Char) :
    (db.addCluster (db.newCluster location)).Stored netloc name ↔ db.Stored netloc name := by
  constructor
  · rintro ⟨d, hd, hnetloc, m, hm, hcluster, hname⟩
    obtain hd | hd := List.mem_append.mp hd
    · exact ⟨d, hd, hnetloc, m, hm, hcluster, hname⟩
    · rw [List.mem_singleton.mp hd] at hcluster
      exact absurd hcluster (newCluster_fresh hl location hm)
  · rintro ⟨d, hd, hstored⟩
    exact ⟨d, List.mem_append_left _ hd, hstored⟩

theorem Ensured.stored {location : List Char} {root : Node} {created : List Cluster} {updates : Dict Nat NodeUpdate}
    (h : Ensured db location c root db' created updates) (hl : db.Linked) :
    db'.Stored netloc name ↔ db.Stored netloc name ∨ (location = netloc ∧ name = ROOT_NODE) := by
  obtain ⟨rfl, -, -⟩ | ⟨hnew, hc, hroot, rfl, -, -⟩ := h.change
  · constructor
    · exact .inl
    · rintro (hstored | ⟨rfl, rfl⟩)
      · exact hstored
      · exact ⟨c, h.cluster, h.name, root, h.root_mem, h.root_cluster, h.root_name⟩
  · rw [stored_addNode (hc ▸ hl.addCluster hnew) (List.mem_append_right _ (List.mem_singleton_self c)) h.root_cluster, hc,
      stored_addCluster hl, ← hc, h.name, h.root_name, eq_comm (a := ROOT_NODE)]

theorem Handled.stored {status : NodeStatus} {updates updates' : Dict Nat NodeUpdate} {own : Name}
    (h : Handled db c own status updates db' updates') (hl : db.Linked) (hc : c ∈ db.clusters) :
    db'.Stored netloc name ↔ db.Stored netloc name ∨ (c.name = netloc ∧ name = own) := by
  cases h with
  | @status n _ _ hn hcluster hname hstatus =>
    have hsame : db'.Stored netloc name ↔ db.Stored netloc name := by
      unfold updateStatus at hstatus
      split at hstatus
      · rw [(Prod.mk.inj hstatus).1]
      · rw [← (Prod.mk.inj hstatus).1, save_eq hl hn]
        exact stored_mapNodes (fun _ => ⟨rfl, rfl⟩)
    rw [hsame]
    constructor
    · exact .inl
    · rintro (hstored | ⟨rfl, rfl⟩)
      · exact hstored
      · exact ⟨c, hc, rfl, n, hn, hcluster, hname⟩
  | @created p n moved _ _ _ hn hlinked _ =>
    have hcluster : n.clusterId = c.id := by rw [hn]; rfl
    have hname : n.name = own := by rw [hn]; rfl
    rw [inserted_eq, stored_mapNodes (fun m => (adopt_keeps db n m).2), stored_addNode hl hc hcluster, hname,
      eq_comm (a := own)]

/-- An event stores what its address mentions. -/
theorem handle_stored (h : db.Linked) (hr : db.Rooted) (valid : List Char → Bool) (request : Request) :
    (request.handle valid db).1.Stored netloc name ↔
      db.Stored netloc name ∨ Mentions valid request.event.url netloc name := by
  unfold Request.handle
  cases hsend : sendEvent valid request.engine db request.event with
  | none =>
    have hnot : ¬ Mentions valid request.event.url netloc name := by
      rintro ⟨parts, own, hparts, hown, -⟩
      simp [sendEvent, hparts, hown] at hsend
    simp [hnot]
  | some result =>
    obtain ⟨parts, own, c, root, db₁, created, updates, updates', hparts, hown, hensured, hstep, -⟩ :=
      sendEvent_cases h hr hsend
    rw [Option.getD_some, hstep.stored hensured.linked hensured.cluster, hensured.stored h, hensured.name, or_assoc]
    have hmentions : Mentions valid request.event.url netloc name ↔
        (parts.netloc = netloc ∧ name = ROOT_NODE) ∨ (parts.netloc = netloc ∧ name = own) := by
      rw [← and_or_left]
      constructor
      · rintro ⟨parts', own', hparts', hown', hmentions⟩
        obtain rfl := Option.some.inj (hparts.symm.trans hparts')
        obtain rfl := Option.some.inj (hown.symm.trans hown')
        exact hmentions
      · intro hmentions
        exact ⟨parts, own, hparts, hown, hmentions⟩
    rw [hmentions]

/-- After any events the stored names are those that were mentioned. -/
theorem handleAll_stored (valid : List Char → Bool) (requests : List Request) :
    (handleAll valid {} requests).Stored netloc name ↔
      ∃ request ∈ requests, Mentions valid request.event.url netloc name := by
  induction requests using List.reverseRecOn with
  | nil => simp [handleAll, Db.Stored]
  | append_singleton requests request ih =>
    obtain ⟨h, hr⟩ := handleAll_linked empty_linked empty_rooted valid requests
    have hstep : (request.handle valid (handleAll valid {} requests)).1.Stored netloc name ↔ _ ∨ _ :=
      handle_stored h hr valid request
    rw [ih] at hstep
    simp only [handleAll, List.foldl_append, List.foldl_cons, List.foldl_nil, List.mem_append, List.mem_singleton] at hstep ⊢
    rw [hstep]
    constructor
    · rintro (⟨r, hr, hmentions⟩ | hmentions)
      · exact ⟨r, .inl hr, hmentions⟩
      · exact ⟨request, .inr rfl, hmentions⟩
    · rintro ⟨r, hr | rfl, hmentions⟩
      · exact .inl ⟨r, hr, hmentions⟩
      · exact .inr hmentions

theorem handleAll_names {valid : List Char → Bool} {requests : List Request} {P : Name → Prop} (hroot : P ROOT_NODE)
    (hnames : ∀ request ∈ requests, ∀ name, nodeName valid request.event.url = some name → P name) :
    ∀ n ∈ (handleAll valid {} requests).nodes, P n.name := by
  intro n hn
  obtain ⟨h, -⟩ := handleAll_linked empty_linked empty_rooted valid requests
  obtain ⟨c, hc, hcluster⟩ := h.clustered n hn
  obtain ⟨request, hrequest, parts, own, -, hown, -, hname⟩ :=
    (handleAll_stored valid requests).mp ⟨c, hc, rfl, n, hn, hcluster.symm, rfl⟩
  obtain hname | hname := hname
  · rwa [hname]
  · rw [hname]
    exact hnames request hrequest own hown

/-! ## Every run -/

theorem Ensured.tight {location : List Char} {root : Node} {created : List Cluster} {updates : Dict Nat NodeUpdate}
    (h : Ensured db location c root db' created updates) (hl : db.Linked) (ht : db.Tight) : db'.Tight := by
  obtain ⟨rfl, -, -⟩ | ⟨-, hc, -, rfl, -, -⟩ := h.change
  · exact ht
  · intro m hm hname
    obtain hm | hm := List.mem_append.mp hm
    · obtain ⟨p, hparent, hnearest⟩ := ht m hm hname
      refine ⟨p, hparent, hnearest.concat rfl ?_⟩
      intro he
      rw [h.root_cluster, hc] at he
      exact absurd he.symm (newCluster_fresh hl location hm)
    · rw [List.mem_singleton.mp hm] at hname
      exact absurd h.root_name hname

theorem Handled.tight {status : NodeStatus} {updates updates' : Dict Nat NodeUpdate}
    (h : Handled db c name status updates db' updates') (hl : db.Linked) (hclean : ∀ m ∈ db.nodes, Clean m.name)
    (ht : db.Tight) (hne : name ≠ []) : db'.Tight := by
  cases h with
  | @status n _ _ hn _ _ hstatus =>
    unfold updateStatus at hstatus
    split at hstatus
    · rwa [← (Prod.mk.inj hstatus).1]
    · rw [← (Prod.mk.inj hstatus).1, save_eq hl hn]
      exact ht.map (fun _ => ⟨rfl, rfl, rfl⟩) (fun _ => rfl)
  | @created p n moved hp hname _ hn _ _ =>
    subst hn
    exact ht.inserted hl hclean rfl hne hname rfl hp

/-- One event keeps every node at a longest stored ancestor. -/
theorem handle_tight (h : db.Linked) (hr : db.Rooted) (hclean : ∀ m ∈ db.nodes, Clean m.name) (ht : db.Tight)
    (valid : List Char → Bool) (request : Request) : (request.handle valid db).1.Tight := by
  unfold Request.handle
  cases hsend : sendEvent valid request.engine db request.event with
  | none => exact ht
  | some result =>
    obtain ⟨parts, own, c, root, db₁, created, updates, updates', -, hown, hensured, hstep, -⟩ := sendEvent_cases h hr hsend
    have hclean₁ : ∀ m ∈ db₁.nodes, Clean m.name := by
      obtain ⟨rfl, -, -⟩ | ⟨-, -, -, rfl, -, -⟩ := hensured.change
      · exact hclean
      · intro m hm
        obtain hm | hm := List.mem_append.mp hm
        · exact hclean m hm
        · rw [List.mem_singleton.mp hm, hensured.root_name]
          exact clean_root
    exact hstep.tight hensured.linked hclean₁ (hensured.tight h ht) (nodeName_ne_nil hown)

theorem handleAll_tight {valid : List Char → Bool} {requests : List Request}
    (hclean : ∀ request ∈ requests, ∀ name, nodeName valid request.event.url = some name → Clean name) :
    (handleAll valid {} requests).Tight := by
  induction requests using List.reverseRecOn with
  | nil =>
    intro n hn
    cases hn
  | append_singleton requests request ih =>
    have hbefore : ∀ r ∈ requests, ∀ name, nodeName valid r.event.url = some name → Clean name :=
      fun r hr => hclean r (List.mem_append_left _ hr)
    obtain ⟨h, hr⟩ := handleAll_linked empty_linked empty_rooted valid requests
    have hstep := handle_tight h hr (handleAll_names clean_root hbefore) (ih hbefore) valid request
    simpa only [handleAll, List.foldl_append, List.foldl_cons, List.foldl_nil] using hstep

/-! ## The order of the events -/

/-- In the cluster of the location the node of the name hangs off the other one. -/
def Db.Below (db : Db) (netloc : List Char) (name parent : Name) : Prop :=
  ∃ c ∈ db.clusters, c.name = netloc ∧ ∃ n ∈ db.nodes, n.clusterId = c.id ∧ n.name = name ∧
    ∃ p ∈ db.nodes, n.parentId = some p.id ∧ p.name = parent

instance (db : Db) (netloc : List Char) (name parent : Name) : Decidable (db.Below netloc name parent) :=
  inferInstanceAs (Decidable (∃ c ∈ db.clusters, c.name = netloc ∧ ∃ n ∈ db.nodes, n.clusterId = c.id ∧ n.name = name ∧
    ∃ p ∈ db.nodes, n.parentId = some p.id ∧ p.name = parent))

/-- The parent of a node is its nearest ancestor. -/
theorem Db.Tight.nearest (ht : db.Tight) (h : db.Linked) {n p : Node} (hn : n ∈ db.nodes) (hp : p ∈ db.nodes)
    (hparent : n.parentId = some p.id) : n.name ≠ ROOT_NODE ∧ Nearest db n.clusterId n.name p := by
  have hname : n.name ≠ ROOT_NODE := by
    intro hname
    rw [h.root n hn hname] at hparent
    cases hparent
  obtain ⟨q, hq, hnearest⟩ := ht n hn hname
  obtain rfl : p = q := h.eq_of_id hp hnearest.mem (Option.some.inj (hparent.symm.trans hq))
  exact ⟨hname, hnearest⟩

/-- The tree is a matter of the stored names. -/
theorem below_iff (h : db.Linked) (ht : db.Tight) (hproper : ∀ n ∈ db.nodes, Proper n.name) {parent : Name} :
    db.Below netloc name parent ↔ name ≠ ROOT_NODE ∧ db.Stored netloc name ∧ db.Stored netloc parent ∧
      parent ∈ ancestorNames name ∧ ∀ a, db.Stored netloc a → a ∈ ancestorNames name → a.length ≤ parent.length := by
  constructor
  · rintro ⟨c, hc, hnetloc, n, hn, hcluster, rfl, p, hp, hparent, rfl⟩
    obtain ⟨hname, hnearest⟩ := ht.nearest h hn hp hparent
    refine ⟨hname, ⟨c, hc, hnetloc, n, hn, hcluster, rfl⟩,
      ⟨c, hc, hnetloc, p, hp, hnearest.cluster.trans hcluster, rfl⟩, hnearest.ancestor, ?_⟩
    rintro a ⟨d, hd, hdnetloc, m, hm, hmcluster, rfl⟩ ha
    have hsame : d = c := List.inj_on_of_nodup_map h.clusterNames hd hc (hdnetloc.trans hnetloc.symm)
    exact hnearest.longest m hm (hmcluster.trans ((congrArg (·.id) hsame).trans hcluster.symm)) ha
  · rintro ⟨hname, ⟨c, hc, hnetloc, n, hn, hcluster, rfl⟩, ⟨d, hd, hdnetloc, m, hm, hmcluster, rfl⟩, hancestor, hlongest⟩
    obtain rfl : d = c := List.inj_on_of_nodup_map h.clusterNames hd hc (hdnetloc.trans hnetloc.symm)
    obtain ⟨p, hp, hnearest⟩ := ht n hn hname
    have hlength : p.name.length = m.name.length := by
      apply Nat.le_antisymm
      · exact hlongest p.name ⟨d, hd, hnetloc, p, hnearest.mem, hnearest.cluster.trans hcluster, rfl⟩ hnearest.ancestor
      · exact hnearest.longest m hm (hmcluster.trans hcluster.symm) hancestor
    have hsame := (hproper n hn).ancestor_inj hnearest.ancestor hancestor (h.nonempty p hnearest.mem)
      (h.nonempty m hm) hlength
    exact ⟨d, hd, hnetloc, n, hn, hcluster, rfl, p, hnearest.mem, hp, hsame⟩

/-- Every node hangs off a longest stored ancestor. Where no name begins with a
segment of one character and goes on, it is the only longest one, and the order
and repetition of the events do not matter. -/
theorem handleAll_nearest (valid : List Char → Bool) (requests : List Request)
    (hclean : ∀ request ∈ requests, ∀ name, nodeName valid request.event.url = some name → Clean name) :
    (handleAll valid {} requests).Tight ∧
      ((∀ request ∈ requests, ∀ name, nodeName valid request.event.url = some name → Proper name) →
        (∀ n ∈ (handleAll valid {} requests).nodes, ∀ p ∈ (handleAll valid {} requests).nodes, n.parentId = some p.id →
          ∀ m ∈ (handleAll valid {} requests).nodes, m.clusterId = n.clusterId → m.name ∈ ancestorNames n.name →
            m = p ∨ m.name.length < p.name.length) ∧
        ∀ requests' : List Request,
          (∀ url, (∃ r ∈ requests', r.event.url = url) ↔ ∃ r ∈ requests, r.event.url = url) →
          ∀ netloc name parent, (handleAll valid {} requests').Below netloc name parent ↔
            (handleAll valid {} requests).Below netloc name parent) := by
  have ht := handleAll_tight hclean
  obtain ⟨h, -⟩ := handleAll_linked empty_linked empty_rooted valid requests
  refine ⟨ht, fun hproper => ⟨?_, ?_⟩⟩
  · have hnames := handleAll_names proper_root hproper
    intro n hn p hp hparent m hm hcluster hancestor
    obtain ⟨-, hnearest⟩ := ht.nearest h hn hp hparent
    have hle := hnearest.longest m hm hcluster hancestor
    by_cases hlength : m.name.length = p.name.length
    · have hsame := (hnames n hn).ancestor_inj hancestor hnearest.ancestor (h.nonempty m hm) (h.nonempty p hp) hlength
      exact .inl (h.eq_of_name hm hp (hcluster.trans hnearest.cluster.symm) hsame)
    · exact .inr (by omega)
  · intro requests' hurls netloc name parent
    have hproper' : ∀ request ∈ requests', ∀ name, nodeName valid request.event.url = some name → Proper name := by
      intro request hrequest own hown
      obtain ⟨r, hr, hsame⟩ := (hurls request.event.url).mp ⟨request, hrequest, rfl⟩
      exact hproper r hr own (hsame ▸ hown)
    obtain ⟨h', -⟩ := handleAll_linked empty_linked empty_rooted valid requests'
    have ht' := handleAll_tight (fun r hr own hown => (hproper' r hr own hown).clean)
    have hstored (name : Name) : (handleAll valid {} requests').Stored netloc name ↔
        (handleAll valid {} requests).Stored netloc name := by
      rw [handleAll_stored, handleAll_stored]
      constructor
      · rintro ⟨request, hrequest, hmentions⟩
        obtain ⟨r, hr, hsame⟩ := (hurls request.event.url).mp ⟨request, hrequest, rfl⟩
        exact ⟨r, hr, hsame ▸ hmentions⟩
      · rintro ⟨request, hrequest, hmentions⟩
        obtain ⟨r, hr, hsame⟩ := (hurls request.event.url).mpr ⟨request, hrequest, rfl⟩
        exact ⟨r, hr, hsame ▸ hmentions⟩
    rw [below_iff h' ht' (handleAll_names proper_root hproper'), below_iff h ht (handleAll_names proper_root hproper)]
    simp only [hstored]

/-! ## Names that begin with a segment of one character -/

/-- The last of the longest rows. -/
def lastLongest (rows : List Node) : Option Node :=
  rows.foldl (fun best n => if best.elim 0 (·.name.length) ≤ n.name.length then some n else best) none

theorem lastLongest_spec (rows : List Node) (hne : rows ≠ []) :
    ∃ n, lastLongest rows = some n ∧ n ∈ rows ∧ ∀ m ∈ rows, m.name.length ≤ n.name.length := by
  induction rows using List.reverseRecOn with
  | nil => exact absurd rfl hne
  | append_singleton rows n ih =>
    have hstep : lastLongest (rows ++ [n]) =
        if (lastLongest rows).elim 0 (·.name.length) ≤ n.name.length then some n else lastLongest rows := by
      rw [lastLongest, List.foldl_append]
      rfl
    rw [hstep]
    by_cases hrows : rows = []
    · subst hrows
      exact ⟨n, by simp [lastLongest], by simp, by simp⟩
    · obtain ⟨best, hbest, hmem, hlongest⟩ := ih hrows
      rw [hbest, Option.elim_some]
      split
      · refine ⟨n, rfl, by simp, ?_⟩
        intro m hm
        obtain hm | hm := List.mem_append.mp hm
        · have hle := hlongest m hm
          omega
        · rw [List.mem_singleton.mp hm]
      · refine ⟨best, rfl, by simp [hmem], ?_⟩
        intro m hm
        obtain hm | hm := List.mem_append.mp hm
        · exact hlongest m hm
        · rw [List.mem_singleton.mp hm]
          omega

/-- Rows in the order they were stored, and of several longest ones the last. -/
def storedOrder : Engine where
  first := lastLongest
  all rows := rows
  first_nil := rfl
  first_cons := lastLongest_spec
  all_perm _ := .refl _

/-- The addresses, found one after the other. -/
def discovered (urls : List String) : List Request := urls.map (fun url => ⟨storedOrder, .pending url.toList⟩)

/-- The page of the directory `a/` is as long as the root: it is not handed what
it holds, and whether it gets it later is up to the engine. -/
theorem nearest_ambiguous :
    Clean "a".toList ∧ Clean "a/b".toList ∧ "a".toList ∈ ancestorNames "a/b".toList ∧
      nodeName (fun _ => true) "a".toList = some "a".toList ∧ nodeName (fun _ => true) "a/b".toList = some "a/b".toList ∧
      (handleAll (fun _ => true) {} (discovered ["a/b", "a"])).Below [] "a".toList ROOT_NODE ∧
      (handleAll (fun _ => true) {} (discovered ["a/b", "a"])).Below [] "a/b".toList ROOT_NODE ∧
      (handleAll (fun _ => true) {} (discovered ["a", "a/b"])).Below [] "a/b".toList "a".toList ∧
      ¬ (handleAll (fun _ => true) {} (discovered ["a", "a/b"])).Below [] "a/b".toList ROOT_NODE := by
  unfold Clean
  decide

theorem proper_discovered : ∀ request ∈ discovered ["http://h/a/b", "http://h/a"],
    ∀ name, nodeName (fun _ => true) request.event.url = some name → Proper name := by
  intro request hrequest name hname
  have hpage : nodeName (fun _ => true) "http://h/a".toList = some "/a".toList := by decide
  have hbelow : nodeName (fun _ => true) "http://h/a/b".toList = some "/a/b".toList := by decide
  simp only [discovered, List.map_cons, List.map_nil, List.mem_cons, List.not_mem_nil, or_false] at hrequest
  obtain rfl | rfl := hrequest
  · obtain rfl := Option.some.inj (hbelow.symm.trans hname)
    exact Clean.proper_of_rooted (by unfold Clean; decide)
  · obtain rfl := Option.some.inj (hpage.symm.trans hname)
    exact Clean.proper_of_rooted (by unfold Clean; decide)

theorem handleAll_nearest_pages :
    (handleAll (fun _ => true) {} (discovered ["http://h/a/b", "http://h/a"])).Tight ∧
      ((handleAll (fun _ => true) {} (discovered ["http://h/a", "http://h/a/b"])).Below "h".toList "/a/b".toList "/a".toList ↔
        (handleAll (fun _ => true) {} (discovered ["http://h/a/b", "http://h/a"])).Below "h".toList "/a/b".toList
          "/a".toList) := by
  obtain ⟨htight, horder⟩ := handleAll_nearest (fun _ => true) (discovered ["http://h/a/b", "http://h/a"])
    (fun request hrequest name hname => (proper_discovered request hrequest name hname).clean)
  refine ⟨htight, (horder proper_discovered).2 _ ?_ _ _ _⟩
  intro url
  simp only [discovered, List.map_cons, List.map_nil, List.mem_cons, List.not_mem_nil, or_false, exists_eq_or_imp,
    exists_eq_left]
  exact or_comm

end

/-! ## The two tests for ancestry -/

/-- What the query for descendants asks of a node's name. -/
def treatsAsDescendant (name other : Name) : Bool := (prefixOf name).isPrefixOf other && other ≠ prefixOf name

theorem Db.adopts_iff {db : Db} {clusterId : Nat} {name : Name} {id : Nat} {n : Node} :
    db.adopts clusterId name id n = true ↔ ∃ currentParent, n.parentId.bind db.nodeById = some currentParent ∧
      n.clusterId = clusterId ∧ treatsAsDescendant name n.name = true ∧ n.id ≠ id ∧
      currentParent.name.length < name.length := by
  simp [Db.adopts, treatsAsDescendant, Option.any_eq_true, and_assoc]

/-- Rounds that the loop has no use for. -/
theorem ancestorLoop_fuel {fuel : Nat} {current : Name} (hfuel : current.length ≤ fuel) :
    ancestorLoop fuel current = ancestorLoop current.length current := by
  induction fuel using Nat.strong_induction_on generalizing current with
  | _ fuel ih =>
    cases fuel with
    | zero =>
      obtain rfl : current = [] := List.eq_nil_of_length_eq_zero (by omega)
      rfl
    | succ fuel =>
      cases hlength : current.length with
      | zero =>
        obtain rfl : current = [] := List.eq_nil_of_length_eq_zero hlength
        rfl
      | succ length =>
        simp only [ancestorLoop]
        split
        · rfl
        · rename_i hne
          have hlt : (directoryOf (rstrip current)).length < current.length :=
            lt_of_lt_of_le (directoryOf_length hne (getLast_rstrip current)) (rstrip_isPrefix current).length_le
          split
          · rfl
          · rw [ih fuel (by omega) (by omega), ih length (by omega) (by omega)]

/-- A name is among the names that could hold another one exactly if that one
would be handed to it, unless its directory form is overshot. -/
theorem ancestry_agrees_iff {name other : Name} (hrooted : name.head? = some '/') (hroot : name ≠ ROOT_NODE) :
    ((∀ fuel, other.length ≤ fuel → ancestorLoop fuel other ++ [ROOT_NODE] = ancestorNames other) ∧
      (name ∈ ancestorNames other ↔ treatsAsDescendant name other = true)) ↔ ¬ Overshoots name other := by
  have hne : name ≠ [] := by
    rintro rfl
    cases hrooted
  have hfinite : ∀ fuel, other.length ≤ fuel → ancestorLoop fuel other ++ [ROOT_NODE] = ancestorNames other := by
    intro fuel hfuel
    rw [ancestorLoop_fuel hfuel, ancestorNames]
  have htest : treatsAsDescendant name other = true ↔ prefixOf name <+: other ∧ other ≠ prefixOf name := by
    simp [treatsAsDescendant]
  rw [and_iff_right hfinite, htest, mem_ancestorNames_iff_overshoots hne hroot]
  constructor
  · intro hagree hover
    obtain ⟨rest, hother, -⟩ := id hover
    have htreats : prefixOf name <+: other ∧ other ≠ prefixOf name := by
      rw [hother]
      exact ⟨List.prefix_append _ _, by simp⟩
    exact (hagree.mpr htreats).2.2 hover
  · intro hover
    rw [and_iff_left hover]

theorem ancestry_agrees_page :
    ((∀ fuel, "/products/nike".toList.length ≤ fuel →
        ancestorLoop fuel "/products/nike".toList ++ [ROOT_NODE] = ancestorNames "/products/nike".toList) ∧
      ("/products".toList ∈ ancestorNames "/products/nike".toList ↔
        treatsAsDescendant "/products".toList "/products/nike".toList = true)) ↔
      ¬ Overshoots "/products".toList "/products/nike".toList :=
  ancestry_agrees_iff (by decide) (by decide)

/-- A page that is found before the directory is handed to it, and one that is
found after it hangs off the root. -/
theorem ancestry_disagrees :
    "/a/".toList ∉ ancestorNames "/a//b".toList ∧ treatsAsDescendant "/a/".toList "/a//b".toList = true ∧
      (handleAll (fun _ => true) {} (discovered ["http://h/a//b", "http://h/a/"])).Below "h".toList "/a//b".toList
        "/a/".toList ∧
      (handleAll (fun _ => true) {} (discovered ["http://h/a/", "http://h/a//b"])).Below "h".toList "/a//b".toList
        ROOT_NODE ∧
      ¬ (handleAll (fun _ => true) {} (discovered ["http://h/a/", "http://h/a//b"])).Below "h".toList "/a//b".toList
        "/a/".toList := by
  decide

end Linksurf.Visualization
