import Linksurf.Graph

/-!
# One tree for each cluster

The invariant of the database: ids count up, names are unique within a cluster,
and every node but the root of its cluster has a parent there, which is the root
or has a shorter name. A node that is stored between its parent and its
descendants keeps it.
-/
namespace Linksurf.Visualization

open Dicts (Dict)
open UrlParse

/-- A parent that fits a node of the name in the cluster. -/
def Db.Fits (db : Db) (clusterId : Nat) (name : Name) (id : Nat) : Prop :=
  ∃ p ∈ db.nodes, p.id = id ∧ p.clusterId = clusterId ∧ (p.name = ROOT_NODE ∨ p.name.length < name.length)

structure Db.Linked (db : Db) : Prop where
  clusterIds : db.clusters.map (·.id) = List.range' 1 db.clusters.length
  clusterNames : (db.clusters.map (·.name)).Nodup
  nodeIds : db.nodes.map (·.id) = List.range' 1 db.nodes.length
  names : (db.nodes.map (fun n => (n.clusterId, n.name))).Nodup
  clustered : ∀ n ∈ db.nodes, ∃ c ∈ db.clusters, c.id = n.clusterId
  nonempty : ∀ n ∈ db.nodes, n.name ≠ []
  root : ∀ n ∈ db.nodes, n.name = ROOT_NODE → n.parentId = none
  parent : ∀ n ∈ db.nodes, n.name ≠ ROOT_NODE → ∃ id, n.parentId = some id ∧ db.Fits n.clusterId n.name id

/-- Every cluster has its root, and the clusters come in the order of their first
nodes. -/
structure Db.Rooted (db : Db) : Prop where
  root : ∀ c ∈ db.clusters, ∃ r ∈ db.nodes, r.clusterId = c.id ∧ r.name = ROOT_NODE
  order : (db.nodes.map (·.clusterId)).eraseDups = db.clusters.map (·.id)

section

variable {db : Db} {n m : Node} {c : Cluster} {clusterId id : Nat} {name : Name} {netloc : List Char}

/-! ## Lookups -/

theorem find?_eq_of_unique {α : Type} {l : List α} {p : α → Bool} {a : α} (ha : a ∈ l) (hp : p a = true)
    (hunique : ∀ b ∈ l, p b = true → b = a) : l.find? p = some a := by
  cases hfind : l.find? p with
  | none =>
    have hno := List.find?_eq_none.mp hfind a ha
    exact absurd hp hno
  | some b =>
    rw [hunique b (List.mem_of_find?_eq_some hfind) (List.find?_some hfind)]

namespace Db.Linked

theorem clusters_nodup (h : db.Linked) : (db.clusters.map (·.id)).Nodup := by
  rw [h.clusterIds]
  exact List.nodup_range'

theorem nodes_nodup (h : db.Linked) : (db.nodes.map (·.id)).Nodup := by
  rw [h.nodeIds]
  exact List.nodup_range'

theorem node_id_le (h : db.Linked) (hn : n ∈ db.nodes) : n.id ≤ db.nodes.length := by
  have hmem : n.id ∈ db.nodes.map (·.id) := List.mem_map_of_mem hn
  rw [h.nodeIds, List.mem_range'_1] at hmem
  omega

theorem cluster_id_le (h : db.Linked) (hc : c ∈ db.clusters) : c.id ≤ db.clusters.length := by
  have hmem : c.id ∈ db.clusters.map (·.id) := List.mem_map_of_mem hc
  rw [h.clusterIds, List.mem_range'_1] at hmem
  omega

theorem eq_of_id (h : db.Linked) (hn : n ∈ db.nodes) (hm : m ∈ db.nodes) (he : n.id = m.id) : n = m :=
  List.inj_on_of_nodup_map h.nodes_nodup hn hm he

theorem eq_of_name (h : db.Linked) (hn : n ∈ db.nodes) (hm : m ∈ db.nodes) (hcluster : n.clusterId = m.clusterId)
    (hname : n.name = m.name) : n = m :=
  List.inj_on_of_nodup_map h.names hn hm (Prod.ext hcluster hname)

theorem nodeById (h : db.Linked) (hn : n ∈ db.nodes) : db.nodeById n.id = some n :=
  find?_eq_of_unique hn (by simp) (fun m hm he => h.eq_of_id hm hn (by simpa using he))

theorem cluster_unique (h : db.Linked) {d : Cluster} (hc : c ∈ db.clusters) (hd : d ∈ db.clusters)
    (he : c.id = d.id) : c = d :=
  List.inj_on_of_nodup_map h.clusters_nodup hc hd he

end Db.Linked

theorem mem_of_node? (h : db.node? clusterId name = some n) : n ∈ db.nodes ∧ n.clusterId = clusterId ∧ n.name = name := by
  have hmem := List.mem_of_find?_eq_some h
  have hp := List.find?_some h
  simp only [decide_eq_true_eq] at hp
  exact ⟨hmem, hp⟩

theorem node?_none (h : db.node? clusterId name = none) (hn : n ∈ db.nodes) (hcluster : n.clusterId = clusterId) :
    n.name ≠ name := by
  intro hname
  have hno := List.find?_eq_none.mp h n hn
  simp [hcluster, hname] at hno

theorem mem_of_cluster? (h : db.cluster? netloc = some c) : c ∈ db.clusters ∧ c.name = netloc := by
  have hmem := List.mem_of_find?_eq_some h
  have hp := List.find?_some h
  exact ⟨hmem, by simpa using hp⟩

/-! ## Changes of the tables -/

theorem Db.Fits.mono {db' : Db} (h : db.Fits clusterId name id)
    (hsame : ∀ p ∈ db.nodes, ∃ p' ∈ db'.nodes, p'.id = p.id ∧ p'.clusterId = p.clusterId ∧ p'.name = p.name) :
    db'.Fits clusterId name id := by
  obtain ⟨p, hp, hid, hcluster, hname⟩ := h
  obtain ⟨p', hp', hid', hcluster', hname'⟩ := hsame p hp
  exact ⟨p', hp', hid'.trans hid, hcluster'.trans hcluster, hname' ▸ hname⟩

theorem Db.Linked.addCluster (h : db.Linked) (hnew : db.cluster? netloc = none) :
    (db.addCluster (db.newCluster netloc)).Linked where
  clusterIds := by
    simp [Db.addCluster, Db.newCluster, h.clusterIds, List.range'_concat, Nat.add_comm]
  clusterNames := by
    have hno : ∀ c ∈ db.clusters, c.name ≠ netloc := by
      intro c hc he
      have hnone := List.find?_eq_none.mp hnew c hc
      simp [he] at hnone
    simp only [Db.addCluster, Db.newCluster, List.map_append, List.map_cons, List.map_nil]
    rw [List.nodup_append']
    refine ⟨h.clusterNames, List.nodup_singleton _, List.disjoint_singleton.mpr ?_⟩
    intro hmem
    obtain ⟨c, hc, he⟩ := List.mem_map.mp hmem
    exact hno c hc he
  nodeIds := h.nodeIds
  names := h.names
  clustered n hn := by
    obtain ⟨c, hc, he⟩ := h.clustered n hn
    exact ⟨c, List.mem_append_left _ hc, he⟩
  nonempty := h.nonempty
  root := h.root
  parent := h.parent

/-- A new node of a new name, with a parent that fits unless it is a root. -/
theorem Db.Linked.addNode (h : db.Linked) (hid : n.id = db.nodes.length + 1) (hc : c ∈ db.clusters)
    (hcluster : n.clusterId = c.id) (hne : n.name ≠ []) (hnew : db.node? n.clusterId n.name = none)
    (hroot : n.name = ROOT_NODE → n.parentId = none)
    (hparent : n.name ≠ ROOT_NODE → ∃ id, n.parentId = some id ∧ db.Fits n.clusterId n.name id) :
    (db.addNode n).Linked where
  clusterIds := h.clusterIds
  clusterNames := h.clusterNames
  nodeIds := by
    simp [Db.addNode, h.nodeIds, hid, List.range'_concat, Nat.add_comm]
  names := by
    simp only [Db.addNode, List.map_append, List.map_cons, List.map_nil]
    rw [List.nodup_append']
    refine ⟨h.names, List.nodup_singleton _, List.disjoint_singleton.mpr ?_⟩
    intro hmem
    obtain ⟨m, hm, he⟩ := List.mem_map.mp hmem
    obtain ⟨hsame, hname⟩ := Prod.mk.inj he
    exact node?_none hnew hm hsame hname
  clustered m hm := by
    obtain hm | hm := List.mem_append.mp hm
    · exact h.clustered m hm
    · rw [List.mem_singleton.mp hm]
      exact ⟨c, hc, hcluster.symm⟩
  nonempty m hm := by
    obtain hm | hm := List.mem_append.mp hm
    · exact h.nonempty m hm
    · rwa [List.mem_singleton.mp hm]
  root m hm := by
    obtain hm | hm := List.mem_append.mp hm
    · exact h.root m hm
    · rwa [List.mem_singleton.mp hm]
  parent m hm hname := by
    have hmono {clusterId id : Nat} {name : Name} (hfits : db.Fits clusterId name id) :
        (db.addNode n).Fits clusterId name id :=
      hfits.mono (fun p hp => ⟨p, List.mem_append_left _ hp, rfl, rfl, rfl⟩)
    obtain hm | hm := List.mem_append.mp hm
    · obtain ⟨id, hid, hfits⟩ := h.parent m hm hname
      exact ⟨id, hid, hmono hfits⟩
    · rw [List.mem_singleton.mp hm] at hname ⊢
      obtain ⟨id, hid, hfits⟩ := hparent hname
      exact ⟨id, hid, hmono hfits⟩

/-- A change of the rows that keeps ids, clusters and names, and gives parents
that fit. -/
theorem Db.Linked.mapNodes (h : db.Linked) {f : Node → Node}
    (hkeep : ∀ n ∈ db.nodes, (f n).id = n.id ∧ (f n).clusterId = n.clusterId ∧ (f n).name = n.name)
    (hroot : ∀ n ∈ db.nodes, n.name = ROOT_NODE → (f n).parentId = none)
    (hparent : ∀ n ∈ db.nodes, n.name ≠ ROOT_NODE → ∃ id, (f n).parentId = some id ∧ db.Fits n.clusterId n.name id) :
    Db.Linked { db with nodes := db.nodes.map f } where
  clusterIds := h.clusterIds
  clusterNames := h.clusterNames
  nodeIds := by
    have hids : (db.nodes.map f).map (·.id) = db.nodes.map (·.id) := by
      rw [List.map_map]
      exact List.map_congr_left (fun n hn => (hkeep n hn).1)
    rw [hids, h.nodeIds, List.length_map]
  names := by
    have hnames : (db.nodes.map f).map (fun n => (n.clusterId, n.name)) = db.nodes.map (fun n => (n.clusterId, n.name)) := by
      rw [List.map_map]
      exact List.map_congr_left (fun n hn => Prod.ext (hkeep n hn).2.1 (hkeep n hn).2.2)
    rw [hnames]
    exact h.names
  clustered m hm := by
    obtain ⟨n, hn, rfl⟩ := List.mem_map.mp hm
    rw [(hkeep n hn).2.1]
    exact h.clustered n hn
  nonempty m hm := by
    obtain ⟨n, hn, rfl⟩ := List.mem_map.mp hm
    rw [(hkeep n hn).2.2]
    exact h.nonempty n hn
  root m hm hname := by
    obtain ⟨n, hn, rfl⟩ := List.mem_map.mp hm
    rw [(hkeep n hn).2.2] at hname
    exact hroot n hn hname
  parent m hm hname := by
    obtain ⟨n, hn, rfl⟩ := List.mem_map.mp hm
    rw [(hkeep n hn).2.2] at hname
    obtain ⟨id, hid, hfits⟩ := hparent n hn hname
    rw [(hkeep n hn).2.1, (hkeep n hn).2.2]
    exact ⟨id, hid, hfits.mono (fun p hp => ⟨f p, List.mem_map_of_mem hp, hkeep p hp⟩)⟩

theorem Db.node?_of_mem (h : db.Linked) (hn : n ∈ db.nodes) : db.node? n.clusterId n.name = some n :=
  find?_eq_of_unique hn (by simp) (fun m hm he => by
    obtain ⟨hcluster, hname⟩ := of_decide_eq_true he
    exact h.eq_of_name hm hn hcluster hname)

/-! ## The cluster and its root -/

theorem newCluster_fresh (hl : db.Linked) (netloc : List Char) (hn : n ∈ db.nodes) :
    n.clusterId ≠ (db.newCluster netloc).id := by
  intro he
  obtain ⟨c, hc, hsame⟩ := hl.clustered n hn
  have hle := hl.cluster_id_le hc
  simp only [Db.newCluster] at he
  omega

/-- The ids of the clusters of all nodes are those of all clusters. -/
theorem Db.Rooted.mem_order (h : db.Rooted) : id ∈ db.nodes.map (·.clusterId) ↔ id ∈ db.clusters.map (·.id) := by
  rw [← h.order, List.mem_eraseDups]

theorem Db.Rooted.addNode (h : db.Rooted) (hc : c ∈ db.clusters) (hcluster : n.clusterId = c.id) :
    (db.addNode n).Rooted where
  root d hd := by
    obtain ⟨root, hroot, hname⟩ := h.root d hd
    exact ⟨root, List.mem_append_left _ hroot, hname⟩
  order := by
    have hmem : n.clusterId ∈ db.nodes.map (·.clusterId) := by
      rw [h.mem_order, hcluster]
      exact List.mem_map_of_mem hc
    simp only [Db.addNode, List.map_append, List.map_cons, List.map_nil]
    rw [Dicts.eraseDups_concat, if_pos hmem, h.order]

/-- A new cluster comes with its root. -/
theorem Db.Rooted.addRoot (h : db.Rooted) (hl : db.Linked) (hroot : n.name = ROOT_NODE)
    (hcluster : n.clusterId = (db.newCluster netloc).id) :
    ((db.addCluster (db.newCluster netloc)).addNode n).Rooted where
  root c hc := by
    obtain hc | hc := List.mem_append.mp hc
    · obtain ⟨root, hroot, hname⟩ := h.root c hc
      exact ⟨root, List.mem_append_left _ hroot, hname⟩
    · rw [List.mem_singleton.mp hc]
      exact ⟨n, List.mem_append_right _ (List.mem_singleton_self n), hcluster, hroot⟩
  order := by
    have hfresh : n.clusterId ∉ db.nodes.map (·.clusterId) := by
      intro hmem
      obtain ⟨m, hm, he⟩ := List.mem_map.mp hmem
      exact newCluster_fresh hl netloc hm (he.trans hcluster)
    simp only [Db.addNode, Db.addCluster, List.map_append, List.map_cons, List.map_nil]
    rw [Dicts.eraseDups_concat, if_neg hfresh, h.order, hcluster]

/-- The cluster of a location and its root are there, or both were created. -/
structure Ensured (db : Db) (netloc : List Char) (c : Cluster) (root : Node) (db' : Db) (created : List Cluster)
    (updates : Dict Nat NodeUpdate) : Prop where
  linked : db'.Linked
  rooted : db'.Rooted
  cluster : c ∈ db'.clusters
  name : c.name = netloc
  root_mem : root ∈ db'.nodes
  root_cluster : root.clusterId = c.id
  root_name : root.name = ROOT_NODE
  change : (db' = db ∧ created = [] ∧ updates = .empty) ∨
    (db.cluster? netloc = none ∧ c = db.newCluster netloc ∧ root = db.newNode ROOT_NODE c.id .pending none ∧
      db' = (db.addCluster c).addNode root ∧ created = [c] ∧ updates = Dict.empty.set root.id root.update)

theorem ensured (h : db.Linked) (hr : db.Rooted) (netloc : List Char) :
    Ensured db netloc (db.ensureCluster netloc).1
      ((db.ensureCluster netloc).2.1.ensureRoot (db.ensureCluster netloc).1.id).1
      ((db.ensureCluster netloc).2.1.ensureRoot (db.ensureCluster netloc).1.id).2.1 (db.ensureCluster netloc).2.2
      ((db.ensureCluster netloc).2.1.ensureRoot (db.ensureCluster netloc).1.id).2.2 := by
  unfold Db.ensureCluster
  cases hfind : db.cluster? netloc with
  | some c =>
    obtain ⟨hc, hname⟩ := mem_of_cluster? hfind
    obtain ⟨root, hroot, hcluster, hrootname⟩ := hr.root c hc
    have hnode : db.node? c.id ROOT_NODE = some root := by
      rw [← hcluster, ← hrootname]
      exact Db.node?_of_mem h hroot
    simp only [Db.ensureRoot, hnode]
    exact ⟨h, hr, hc, hname, hroot, hcluster, hrootname, .inl ⟨rfl, rfl, rfl⟩⟩
  | none =>
    have hlinked := h.addCluster hfind
    have hnode : (db.addCluster (db.newCluster netloc)).node? (db.newCluster netloc).id ROOT_NODE = none := by
      apply List.find?_eq_none.mpr
      intro n hn
      simp [newCluster_fresh h netloc hn]
    simp only [Db.ensureRoot, hnode]
    have hmem : db.newCluster netloc ∈ (db.addCluster (db.newCluster netloc)).clusters :=
      List.mem_append_right _ (List.mem_singleton_self _)
    constructor
    · exact hlinked.addNode rfl hmem rfl (by simp [Db.newNode, ROOT_NODE]) hnode (fun _ => rfl) (fun he => absurd rfl he)
    · exact hr.addRoot h rfl rfl
    · exact hmem
    · rfl
    · exact List.mem_append_right _ (List.mem_singleton_self _)
    · rfl
    · rfl
    · exact .inr ⟨hfind, rfl, rfl, rfl, rfl, rfl⟩

/-! ## A node in its place -/

/-- A row with the status, if it has the id. -/
def restatus (id : Nat) (status : NodeStatus) (m : Node) : Node :=
  { m with status := if m.id = id then status else m.status }

theorem save_eq (h : db.Linked) (hn : n ∈ db.nodes) (status : NodeStatus) :
    db.save { n with status } = { db with nodes := db.nodes.map (restatus n.id status) } := by
  have hnodes : (db.save { n with status }).nodes = db.nodes.map (restatus n.id status) := by
    apply List.map_congr_left
    intro m hm
    unfold restatus
    split
    · rename_i he
      rw [h.eq_of_id hm hn he]
    · rfl
  exact congrArg (Db.mk db.clusters) hnodes

theorem Db.Linked.setStatus (h : db.Linked) (hn : n ∈ db.nodes) (status : NodeStatus) :
    (db.save { n with status }).Linked := by
  rw [save_eq h hn]
  apply h.mapNodes
  · intro m _
    exact ⟨rfl, rfl, rfl⟩
  · intro m hm hname
    exact h.root m hm hname
  · intro m hm hname
    exact h.parent m hm hname

theorem Db.Rooted.mapNodes (h : db.Rooted) {f : Node → Node}
    (hkeep : ∀ n ∈ db.nodes, (f n).clusterId = n.clusterId ∧ (f n).name = n.name) :
    Db.Rooted { db with nodes := db.nodes.map f } where
  root c hc := by
    obtain ⟨root, hroot, hcluster, hname⟩ := h.root c hc
    obtain ⟨hcluster', hname'⟩ := hkeep root hroot
    exact ⟨f root, List.mem_map_of_mem hroot, hcluster'.trans hcluster, hname'.trans hname⟩
  order := by
    have hsame : (db.nodes.map f).map (·.clusterId) = db.nodes.map (·.clusterId) := by
      rw [List.map_map]
      exact List.map_congr_left (fun n hn => (hkeep n hn).1)
    rw [hsame, h.order]

theorem Db.Rooted.setStatus (h : db.Rooted) (hl : db.Linked) (hn : n ∈ db.nodes) (status : NodeStatus) :
    (db.save { n with status }).Rooted := by
  rw [save_eq hl hn]
  apply h.mapNodes
  intro m _
  exact ⟨rfl, rfl⟩

/-! ## A new node -/

/-- The nearest stored ancestor: no other one is longer. -/
structure Nearest (db : Db) (clusterId : Nat) (name : Name) (p : Node) : Prop where
  mem : p ∈ db.nodes
  cluster : p.clusterId = clusterId
  ancestor : p.name ∈ ancestorNames name
  longest : ∀ m ∈ db.nodes, m.clusterId = clusterId → m.name ∈ ancestorNames name → m.name.length ≤ p.name.length

theorem Nearest.fits {p : Node} (h : Nearest db clusterId name p) : db.Fits clusterId name p.id :=
  ⟨p, h.mem, rfl, h.cluster, mem_ancestorNames h.ancestor⟩

theorem parentOf_nearest (engine : Engine) {root : Node} (hroot : root ∈ db.nodes) (hcluster : root.clusterId = clusterId)
    (hname : root.name = ROOT_NODE) (name : Name) :
    ∃ p, db.parentOf engine clusterId name = some p ∧ Nearest db clusterId name p := by
  have hmem (m : Node) : m ∈ db.nodes.filter
      (fun n => n.clusterId = clusterId && (ancestorNames name).contains n.name) ↔
      m ∈ db.nodes ∧ m.clusterId = clusterId ∧ m.name ∈ ancestorNames name := by simp
  have hcandidate := (hmem root).mpr ⟨hroot, hcluster, hname ▸ root_mem_ancestorNames name⟩
  obtain ⟨p, hp, hpmem, hlongest⟩ := engine.first_cons _ (List.ne_nil_of_mem hcandidate)
  obtain ⟨hin, hsame, hancestor⟩ := (hmem p).mp hpmem
  exact ⟨p, hp, hin, hsame, hancestor, fun m hm hmc hma => hlongest m ((hmem m).mpr ⟨hm, hmc, hma⟩)⟩

theorem adopts_iff (h : db.Linked) : db.adopts clusterId name id n = true ↔
    ∃ p ∈ db.nodes, n.parentId = some p.id ∧ n.clusterId = clusterId ∧ prefixOf name <+: n.name ∧
      n.name ≠ prefixOf name ∧ n.id ≠ id ∧ p.name.length < name.length := by
  unfold Db.adopts
  constructor
  · intro ha
    obtain ⟨p, hp, ha⟩ := (Option.any_eq_true _ _).mp ha
    obtain ⟨pid, hparent, hfind⟩ := Option.bind_eq_some_iff.mp hp
    have hpmem := List.mem_of_find?_eq_some hfind
    have hpid : p.id = pid := by simpa using List.find?_some hfind
    simp only [Bool.and_eq_true, decide_eq_true_eq, List.isPrefixOf_iff_prefix] at ha
    obtain ⟨⟨⟨⟨hcluster, hhead⟩, hne⟩, hid⟩, hlength⟩ := ha
    exact ⟨p, hpmem, hpid ▸ hparent, hcluster, hhead, hne, hid, hlength⟩
  · rintro ⟨p, hp, hparent, hcluster, hhead, hne, hid, hlength⟩
    rw [hparent, Option.bind_some, h.nodeById hp, Option.any_some]
    simp [hcluster, hhead, hne, hid, hlength]

theorem nodeById_addNode (hid : n.id = db.nodes.length + 1) (hle : id ≤ db.nodes.length) :
    (db.addNode n).nodeById id = db.nodeById id := by
  have hne : n.id ≠ id := by omega
  simp [Db.nodeById, Db.addNode, List.find?_append, hne]

/-- An old row is adopted whether or not the new one is looked at. -/
theorem adopts_addNode (h : db.Linked) (hid : n.id = db.nodes.length + 1) (hm : m ∈ db.nodes) :
    (db.addNode n).adopts clusterId name id m = db.adopts clusterId name id m := by
  unfold Db.adopts
  cases hparent : m.parentId with
  | none => rfl
  | some pid =>
    have hname : m.name ≠ ROOT_NODE := by
      intro hname
      rw [h.root m hm hname] at hparent
      cases hparent
    obtain ⟨pid', hsame, p, hp, hpid, -⟩ := h.parent m hm hname
    obtain rfl := Option.some.inj (hparent.symm.trans hsame)
    have hle := h.node_id_le hp
    rw [Option.bind_some, Option.bind_some, nodeById_addNode hid (by omega)]

theorem not_adopts_self : db.adopts clusterId name n.id n = false := by
  unfold Db.adopts
  cases n.parentId.bind db.nodeById with
  | none => rfl
  | some p => simp

/-- A row that the new one adopts names it as its parent. -/
def Db.adopt (db : Db) (n m : Node) : Node :=
  if db.adopts n.clusterId n.name n.id m then { m with parentId := some n.id } else m

theorem adopt_keeps (db : Db) (n m : Node) :
    (db.adopt n m).id = m.id ∧ (db.adopt n m).clusterId = m.clusterId ∧ (db.adopt n m).name = m.name := by
  unfold Db.adopt
  split
  · exact ⟨rfl, rfl, rfl⟩
  · exact ⟨rfl, rfl, rfl⟩

theorem adopt_self : db.adopt n n = n := by
  rw [Db.adopt, not_adopts_self, if_neg Bool.false_ne_true]

/-- The rows after a new one took its place. -/
def Db.inserted (db : Db) (n : Node) : Db := { db with nodes := db.nodes.map (db.adopt n) ++ [n] }

theorem reparent_addNode (h : db.Linked) (hlinked : (db.addNode n).Linked) (hid : n.id = db.nodes.length + 1)
    {descendants : List Node}
    (hd : descendants.Perm ((db.addNode n).nodes.filter ((db.addNode n).adopts n.clusterId n.name n.id))) :
    (db.addNode n).reparent (descendants.map (·.id)) n.id = db.inserted n := by
  have hmem : ∀ m ∈ (db.addNode n).nodes,
      (m.id ∈ descendants.map (·.id) ↔ (db.addNode n).adopts n.clusterId n.name n.id m = true) := by
    intro m hm
    rw [List.mem_map]
    constructor
    · rintro ⟨d, hdmem, he⟩
      obtain ⟨hdin, hadopts⟩ := List.mem_filter.mp (hd.mem_iff.mp hdmem)
      rwa [hlinked.eq_of_id hdin hm he] at hadopts
    · intro hadopts
      exact ⟨m, hd.mem_iff.mpr (List.mem_filter.mpr ⟨hm, hadopts⟩), rfl⟩
  have hself : n.id ∉ descendants.map (·.id) := by
    rw [hmem n (List.mem_append_right _ (List.mem_singleton_self _)), not_adopts_self]
    exact Bool.false_ne_true
  have hnodes : ((db.addNode n).reparent (descendants.map (·.id)) n.id).nodes = (db.inserted n).nodes := by
    simp only [Db.reparent, Db.addNode, Db.inserted, List.map_append, List.map_cons, List.map_nil, if_neg hself]
    congr 1
    apply List.map_congr_left
    intro m hm
    have hiff := hmem m (List.mem_append_left _ hm)
    rw [adopts_addNode h hid hm] at hiff
    simp only [hiff, Db.adopt]
  exact congrArg (Db.mk db.clusters) hnodes

/-- The adopted rows are old ones. -/
theorem adopted_addNode (h : db.Linked) (hid : n.id = db.nodes.length + 1) :
    (db.addNode n).nodes.filter ((db.addNode n).adopts n.clusterId n.name n.id) =
      db.nodes.filter (db.adopts n.clusterId n.name n.id) := by
  have hself : [n].filter ((db.addNode n).adopts n.clusterId n.name n.id) = [] := by simp [not_adopts_self]
  rw [show (db.addNode n).nodes = db.nodes ++ [n] from rfl, List.filter_append, hself, List.append_nil]
  exact List.filter_congr (fun m hm => adopts_addNode h hid hm)

theorem Nearest.addNode {p : Node} (h : Nearest db c.id name p) (hl : db.Linked) (hc : c ∈ db.clusters) (hne : name ≠ [])
    (hname : name ≠ ROOT_NODE) (hnew : db.node? c.id name = none) (status : NodeStatus) :
    (db.addNode (db.newNode name c.id status (some p.id))).Linked :=
  hl.addNode rfl hc rfl hne hnew (fun he => absurd he hname) (fun _ => ⟨p.id, rfl, h.fits⟩)

/-- A new node below `p`: the row is added, and the update tells of it and of the
rows it adopts. -/
theorem place_none (h : db.Linked) {engine : Engine} (root : Node) {p : Node} {status : NodeStatus}
    (hp : db.parentOf engine clusterId name = some p) (hn : n = db.newNode name clusterId status (some p.id))
    (hlinked : (db.addNode n).Linked) (updates : Dict Nat NodeUpdate) :
    ∃ moved : List Node, moved.Perm (db.nodes.filter (db.adopts n.clusterId n.name n.id)) ∧
      place engine db clusterId root none name status updates =
        (db.inserted n, (moved.map (fun m => { m with parentId := some n.id })).foldl
          (fun updates d => updates.set d.id d.update) (updates.set n.id n.update)) := by
  have hid : n.id = db.nodes.length + 1 := by rw [hn]; rfl
  have hcluster : n.clusterId = clusterId := by rw [hn]; rfl
  have hname : n.name = name := by rw [hn]; rfl
  subst hcluster hname
  have hd := engine.all_perm ((db.addNode n).nodes.filter ((db.addNode n).adopts n.clusterId n.name n.id))
  have hrows := reparent_addNode h hlinked hid hd
  refine ⟨_, hd.trans (.of_eq (adopted_addNode h hid)), ?_⟩
  simp only [place, hp, Option.getD_some, ← hn, hrows]

/-- What an adopted row has in common with the new one. -/
theorem adopts_fits (h : db.Linked) (hm : m ∈ db.nodes) (ha : db.adopts n.clusterId n.name n.id m = true) :
    m.clusterId = n.clusterId ∧ m.name ≠ ROOT_NODE ∧ n.name.length < m.name.length := by
  obtain ⟨p, -, hparent, hcluster, hhead, hne, -, -⟩ := (adopts_iff h).mp ha
  refine ⟨hcluster, ?_, ?_⟩
  · intro hname
    rw [h.root m hm hname] at hparent
    cases hparent
  · have hle := (prefix_prefixOf n.name).length_le
    have hlt : (prefixOf n.name).length < m.name.length :=
      lt_of_le_of_ne hhead.length_le (fun he => hne (hhead.eq_of_length he).symm)
    omega

theorem inserted_eq : db.inserted n = { db.addNode n with nodes := (db.addNode n).nodes.map (db.adopt n) } := by
  simp [Db.inserted, Db.addNode, adopt_self]

theorem Db.Linked.inserted (h : db.Linked) (hlinked : (db.addNode n).Linked) : (db.inserted n).Linked := by
  rw [inserted_eq]
  apply hlinked.mapNodes
  · intro m _
    exact adopt_keeps db n m
  · intro m hm hname
    obtain hold | hnew := List.mem_append.mp hm
    · unfold Db.adopt
      split
      · rename_i ha
        exact absurd hname (adopts_fits h hold ha).2.1
      · exact hlinked.root m hm hname
    · rw [List.mem_singleton.mp hnew] at hname ⊢
      rw [adopt_self]
      exact hlinked.root n (List.mem_append_right _ (List.mem_singleton_self n)) hname
  · intro m hm hname
    obtain hold | hnew := List.mem_append.mp hm
    · unfold Db.adopt
      split
      · rename_i ha
        obtain ⟨hcluster, -, hlength⟩ := adopts_fits h hold ha
        exact ⟨n.id, rfl, n, List.mem_append_right _ (List.mem_singleton_self n), rfl, hcluster.symm, .inr hlength⟩
      · exact hlinked.parent m hm hname
    · rw [List.mem_singleton.mp hnew] at hname ⊢
      rw [adopt_self]
      exact hlinked.parent n (List.mem_append_right _ (List.mem_singleton_self n)) hname

theorem Db.Rooted.inserted (h : db.Rooted) (hlinked : (db.addNode n).Linked) : (db.inserted n).Rooted := by
  rw [inserted_eq]
  apply Db.Rooted.mapNodes
  · obtain ⟨c, hc, hcluster⟩ := hlinked.clustered n (List.mem_append_right _ (List.mem_singleton_self n))
    exact h.addNode hc hcluster.symm
  · intro m _
    exact (adopt_keeps db n m).2

/-! ## Events -/

/-- What an event does once its cluster is there: a node that is in its place gets
a status, or a new node takes its place. -/
inductive Handled (db : Db) (c : Cluster) (name : Name) (status : NodeStatus) (updates : Dict Nat NodeUpdate) :
    Db → Dict Nat NodeUpdate → Prop
  | status {n : Node} {db' : Db} {updates' : Dict Nat NodeUpdate} (hn : n ∈ db.nodes) (hcluster : n.clusterId = c.id)
      (hname : n.name = name) (hstatus : updateStatus db n status updates = (db', updates')) :
      Handled db c name status updates db' updates'
  | created {p n : Node} {moved : List Node} (hp : Nearest db c.id name p) (hname : name ≠ ROOT_NODE)
      (hnew : db.node? c.id name = none) (hn : n = db.newNode name c.id status (some p.id))
      (hlinked : (db.addNode n).Linked) (hmoved : moved.Perm (db.nodes.filter (db.adopts n.clusterId n.name n.id))) :
      Handled db c name status updates (db.inserted n)
        ((moved.map (fun m => { m with parentId := some n.id })).foldl (fun updates d => updates.set d.id d.update)
          (updates.set n.id n.update))

theorem nodeName_ne_nil {valid : List Char → Bool} {address : List Char} (h : nodeName valid address = some name) :
    name ≠ [] := by
  obtain ⟨parts, -, rfl⟩ := Option.map_eq_some_iff.mp h
  split
  · exact List.cons_ne_nil _ _
  · assumption

/-- Everything an event can do. -/
theorem sendEvent_cases (h : db.Linked) (hr : db.Rooted) {valid : List Char → Bool} {engine : Engine} {event : CrawlEvent}
    {db' : Db} {sent : Option Update} (hsend : sendEvent valid engine db event = some (db', sent)) :
    ∃ parts name c root db₁ created updates updates', urlsplit valid event.url = some parts ∧
      nodeName valid event.url = some name ∧ Ensured db parts.netloc c root db₁ created updates ∧
      Handled db₁ c name event.status updates db' updates' ∧ sent = broadcast created (updates'.entries.map Prod.snd) := by
  obtain ⟨parts, hparts, hsend⟩ := Option.bind_eq_some_iff.mp hsend
  obtain ⟨name, hname, hsend⟩ := Option.bind_eq_some_iff.mp hsend
  have hensured := ensured h hr parts.netloc
  generalize db.ensureCluster parts.netloc = ensuredCluster at hsend hensured
  obtain ⟨c, db₀, created⟩ := ensuredCluster
  dsimp only at hsend hensured
  generalize db₀.ensureRoot c.id = ensuredRoot at hsend hensured
  obtain ⟨root, db₁, updates⟩ := ensuredRoot
  dsimp only at hsend hensured
  refine ⟨parts, name, c, root, db₁, created, updates, ?_⟩
  by_cases hroot : name = ROOT_NODE
  · simp only [hroot, true_or, if_true] at hsend
    obtain ⟨rfl, rfl⟩ := Prod.mk.inj (Option.some.inj hsend)
    exact ⟨_, hparts, hname, hensured,
      .status hensured.root_mem hensured.root_cluster (hensured.root_name.trans hroot.symm) rfl, rfl⟩
  · simp only [hroot, false_or, if_false] at hsend
    cases hnode : db₁.node? c.id name with
    | some n =>
      obtain ⟨hn, hcluster, hnname⟩ := mem_of_node? hnode
      -- rows that are not roots have a parent, so the node is in its place
      obtain ⟨pid, hpid, -⟩ := hensured.linked.parent n hn (hnname ▸ hroot)
      simp only [hnode, hpid, ne_eq, reduceCtorEq, not_false_eq_true, if_true] at hsend
      obtain ⟨rfl, rfl⟩ := Prod.mk.inj (Option.some.inj hsend)
      exact ⟨_, hparts, hname, hensured, .status hn hcluster hnname rfl, rfl⟩
    | none =>
      obtain ⟨p, hp, hnearest⟩ :=
        parentOf_nearest engine hensured.root_mem hensured.root_cluster hensured.root_name name
      have hlinked := hnearest.addNode hensured.linked hensured.cluster (nodeName_ne_nil hname) hroot hnode event.status
      obtain ⟨moved, hmoved, hplace⟩ := place_none hensured.linked root hp rfl hlinked updates
      simp only [hnode, hplace] at hsend
      obtain ⟨rfl, rfl⟩ := Prod.mk.inj (Option.some.inj hsend)
      exact ⟨_, hparts, hname, hensured, .created hnearest hroot hnode rfl hlinked hmoved, rfl⟩

theorem updateStatus_linked (h : db.Linked) (hr : db.Rooted) (hn : n ∈ db.nodes) (status : NodeStatus)
    (updates : Dict Nat NodeUpdate) :
    (updateStatus db n status updates).1.Linked ∧ (updateStatus db n status updates).1.Rooted := by
  unfold updateStatus
  split
  · exact ⟨h, hr⟩
  · exact ⟨h.setStatus hn status, hr.setStatus h hn status⟩

theorem Handled.linked {status : NodeStatus} {updates updates' : Dict Nat NodeUpdate} {db' : Db}
    (hstep : Handled db c name status updates db' updates') (h : db.Linked) (hr : db.Rooted) : db'.Linked ∧ db'.Rooted := by
  cases hstep with
  | status hn _ _ hstatus =>
    have hkeeps := updateStatus_linked h hr hn status updates
    rwa [hstatus] at hkeeps
  | created _ _ _ _ hlinked _ => exact ⟨h.inserted hlinked, hr.inserted hlinked⟩

/-- One event keeps the invariant. -/
theorem handle_linked (h : db.Linked) (hr : db.Rooted) (valid : List Char → Bool) (request : Request) :
    (request.handle valid db).1.Linked ∧ (request.handle valid db).1.Rooted := by
  unfold Request.handle
  cases hsend : sendEvent valid request.engine db request.event with
  | none => exact ⟨h, hr⟩
  | some result =>
    obtain ⟨_, _, _, _, _, _, _, _, -, -, hensured, hstep, -⟩ := sendEvent_cases h hr hsend
    exact hstep.linked hensured.linked hensured.rooted

theorem empty_linked : Db.Linked {} := by
  constructor <;> simp

theorem empty_rooted : Db.Rooted {} := by
  constructor <;> simp

/-- Every state that events lead to from a state with the invariant has it. -/
theorem handleAll_linked (h : db.Linked) (hr : db.Rooted) (valid : List Char → Bool) (requests : List Request) :
    (handleAll valid db requests).Linked ∧ (handleAll valid db requests).Rooted := by
  induction requests generalizing db with
  | nil => exact ⟨h, hr⟩
  | cons request requests ih =>
    obtain ⟨hl, hr⟩ := handle_linked h hr valid request
    exact ih hl hr

end

end Linksurf.Visualization
