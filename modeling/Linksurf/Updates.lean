import Linksurf.Browser
import Linksurf.Snapshot

/-!
# Updates and reloads

A page that loaded a snapshot shows the database. An update takes a page that
shows the database before an event to one that shows it afterwards, with the
depths and counts of a reload, so a page that applies every update never falls
behind.
-/
namespace Linksurf.Visualization

open Dicts (Dict)

/-- The page of a browser that just loaded the snapshot. -/
noncomputable def Db.page (db : Db) : Page where
  clusters := db.clusters.map (fun c => ⟨c.id, c.name, (db.nodesOf c.id).length, db.maxDepth c.id,
    (db.nodesOf c.id).map (·.id), (db.node? c.id ROOT_NODE).map (·.id)⟩)
  nodes := db.nodes.map (fun n => ⟨n.id, n.name, n.status, db.depth n.id, n.clusterId, n.parentId⟩)

/-- A node object without its depth. -/
def PageNode.row (n : PageNode) : Node := ⟨n.id, n.name, n.status, n.cluster, n.parent⟩

/-- A cluster object without its counts. -/
def PageCluster.outline (c : PageCluster) : Cluster × List Nat × Option Nat := (⟨c.id, c.name⟩, c.nodes, c.root)

def Db.outline (db : Db) (c : Cluster) : Cluster × List Nat × Option Nat :=
  (c, (db.nodesOf c.id).map (·.id), (db.node? c.id ROOT_NODE).map (·.id))

/-- The page has the clusters and nodes of the database, whatever it says of depths
and counts. -/
structure Shows (db : Db) (page : Page) : Prop where
  clusters : page.clusters.map PageCluster.outline = db.clusters.map db.outline
  nodes : page.nodes.map PageNode.row = db.nodes
  clusterIds : (page.clusters.map (·.id)).Nodup
  nodeIds : (page.nodes.map (·.id)).Nodup

section

variable {db : Db} {page : Page} {n m : Node} {c : Cluster} {id : Nat} {netloc : List Char}

theorem page_shows (h : db.Linked) : Shows db db.page where
  clusters := by
    rw [Db.page, List.map_map]
    rfl
  nodes := by
    rw [Db.page, List.map_map]
    exact List.map_id'' (fun _ => rfl) _
  clusterIds := by
    rw [Db.page, List.map_map]
    exact h.clusters_nodup
  nodeIds := by
    rw [Db.page, List.map_map]
    exact h.nodes_nodup

@[simp] theorem PageNode.row_id (n : PageNode) : n.row.id = n.id := rfl

/-- What replaces the elements of a key has that key. -/
theorem map_replaced {α : Type} (key : α → Nat) (a : α) (l : List α) :
    (l.map (fun b => if key b = key a then a else b)).map key = l.map key := by
  rw [List.map_map]
  apply List.map_congr_left
  intro b _
  rw [Function.comp_apply]
  split
  · rename_i he
    exact he.symm
  · rfl

theorem Page.setNode_ids (page : Page) (n : PageNode) : (page.setNode n).nodes.map (·.id) = page.nodes.map (·.id) :=
  map_replaced (·.id) n page.nodes

theorem Page.setCluster_ids (page : Page) (c : PageCluster) :
    (page.setCluster c).clusters.map (·.id) = page.clusters.map (·.id) := map_replaced (·.id) c page.clusters

/-! ## Lookups -/

namespace Shows

theorem clusterById (h : Shows db page) (hc : c ∈ db.clusters) :
    ∃ pc, page.clusterById c.id = some pc ∧ pc ∈ page.clusters ∧ pc.outline = db.outline c := by
  obtain ⟨pc, hpc, houtline⟩ := List.mem_map.mp (h.clusters ▸ List.mem_map_of_mem hc : db.outline c ∈ page.clusters.map _)
  have hid : pc.id = c.id := congrArg (fun o => o.1.id) houtline
  refine ⟨pc, find?_eq_of_unique hpc (by simpa using hid) ?_, hpc, houtline⟩
  intro d hd he
  exact List.inj_on_of_nodup_map h.clusterIds hd hpc ((of_decide_eq_true he).trans hid.symm)

theorem nodeById (h : Shows db page) (hn : n ∈ db.nodes) :
    ∃ pn, page.nodeById n.id = some pn ∧ pn ∈ page.nodes ∧ pn.row = n := by
  obtain ⟨pn, hpn, hrow⟩ := List.mem_map.mp (h.nodes ▸ hn : n ∈ page.nodes.map PageNode.row)
  have hid : pn.id = n.id := congrArg (·.id) hrow
  refine ⟨pn, find?_eq_of_unique hpn (by simpa using hid) ?_, hpn, hrow⟩
  intro m hm he
  exact List.inj_on_of_nodup_map h.nodeIds hm hpn ((of_decide_eq_true he).trans hid.symm)

theorem ids (h : Shows db page) : page.nodes.map (·.id) = db.nodes.map (·.id) := by
  rw [← h.nodes, List.map_map]
  rfl

theorem clusters_ids (h : Shows db page) : page.clusters.map (·.id) = db.clusters.map (·.id) := by
  have hsame := congrArg (List.map (fun o : Cluster × List Nat × Option Nat => o.1.id)) h.clusters
  rwa [List.map_map, List.map_map] at hsame

theorem nodeById_none (h : Shows db page) (hid : ∀ n ∈ db.nodes, n.id ≠ id) : page.nodeById id = none := by
  apply List.find?_eq_none.mpr
  intro pn hpn he
  obtain ⟨n, hn, hsame⟩ := List.mem_map.mp (h.ids ▸ List.mem_map_of_mem hpn : pn.id ∈ db.nodes.map (·.id))
  exact hid n hn (hsame.trans (of_decide_eq_true he))

/-- The parent of a row, if it has one, is on the page. -/
theorem parentNode (h : Shows db page) (hparent : ∀ id, n.parentId = some id → ∃ p ∈ db.nodes, p.id = id) :
    ∃ parent, page.parentNode n.parentId = some parent ∧ parent.map (·.id) = n.parentId := by
  cases hp : n.parentId with
  | none => exact ⟨none, rfl, rfl⟩
  | some id =>
    obtain ⟨p, hpmem, rfl⟩ := hparent id hp
    obtain ⟨pn, hfind, -, hrow⟩ := h.nodeById hpmem
    exact ⟨some pn, by rw [Page.parentNode, hfind, Option.map_some], congrArg (fun r : Node => some r.id) hrow⟩

end Shows

/-! ## Rows that change -/

/-- Rows that keep their ids, clusters and names keep the outlines. -/
theorem outline_mapNodes {f : Node → Node}
    (hkeep : ∀ n ∈ db.nodes, (f n).id = n.id ∧ (f n).clusterId = n.clusterId ∧ (f n).name = n.name) (c : Cluster) :
    Db.outline { db with nodes := db.nodes.map f } c = db.outline c := by
  have hnodes : (Db.nodesOf { db with nodes := db.nodes.map f } c.id).map (·.id) = (db.nodesOf c.id).map (·.id) := by
    have hfilter : db.nodes.filter ((fun n => decide (n.clusterId = c.id)) ∘ f) = db.nodesOf c.id := by
      apply List.filter_congr
      intro n hn
      rw [Function.comp_apply, (hkeep n hn).2.1]
    rw [Db.nodesOf, List.filter_map, hfilter, List.map_map]
    exact List.map_congr_left (fun n hn => (hkeep n (List.mem_filter.mp hn).1).1)
  have hroot : (Db.node? { db with nodes := db.nodes.map f } c.id ROOT_NODE).map (·.id) =
      (db.node? c.id ROOT_NODE).map (·.id) := by
    have hfind : db.nodes.find? ((fun n => decide (n.clusterId = c.id ∧ n.name = ROOT_NODE)) ∘ f) =
        db.node? c.id ROOT_NODE := by
      apply List.find?_congr
      intro n hn
      rw [Function.comp_apply, (hkeep n hn).2.1, (hkeep n hn).2.2]
    rw [Db.node?, List.find?_map, hfind]
    cases hnode : db.node? c.id ROOT_NODE with
    | none => rfl
    | some n => exact congrArg some (hkeep n (mem_of_node? hnode).1).1
  rw [Db.outline, hnodes, hroot, Db.outline]

theorem Page.mergeNode_known {update : NodeUpdate} {cluster : PageCluster} {parent : Option PageNode} {node : PageNode}
    {structural : Bool} (hcluster : page.clusterById update.clusterId = some cluster)
    (hparent : page.parentNode update.parent = some parent) (hnode : page.nodeById update.id = some node) :
    mergeNode (page, structural) update = some (page.setNode { node with status := update.status, parent := parent.map (·.id) },
      structural || node.parent ≠ parent.map (·.id)) := by
  simp only [mergeNode, hcluster, hparent, hnode, Option.bind_eq_bind, Option.bind_some, Option.pure_def]

/-- A row that keeps its id, its cluster and its name. -/
theorem Shows.save (h : Shows db page) {m' : Node} (hc : c ∈ db.clusters) (hmc : c.id = m'.clusterId) (hm : m ∈ db.nodes)
    (hkeep : m'.id = m.id ∧ m'.clusterId = m.clusterId ∧ m'.name = m.name)
    (hparent : ∀ id, m'.parentId = some id → ∃ p ∈ db.nodes, p.id = id) (structural : Bool) :
    ∃ page', Page.mergeNode (page, structural) m'.update =
      some (page', structural || m.parentId ≠ m'.parentId) ∧ Shows (db.save m') page' := by
  obtain ⟨pc, hpc, -, -⟩ := h.clusterById hc
  obtain ⟨parent, hfound, hpid⟩ := h.parentNode hparent
  obtain ⟨pn, hpn, hmem, hrow⟩ := h.nodeById hm
  have hid : pn.id = m'.id := (congrArg (·.id) hrow).trans hkeep.1.symm
  have hpparent : pn.parent = m.parentId := congrArg (·.parentId) hrow
  refine ⟨page.setNode { pn with status := m'.status, parent := m'.parentId }, ?_, ?_⟩
  · rw [← hpid, ← hpparent]
    have hcluster : page.clusterById m'.update.clusterId = some pc := by
      rw [← hpc, hmc]
      rfl
    have hnode : page.nodeById m'.update.id = some pn := by
      rw [← hpn, ← hkeep.1]
      rfl
    exact Page.mergeNode_known hcluster hfound hnode
  · have hdb : (db.nodes.map (·.id)).Nodup := h.ids ▸ h.nodeIds
    have hsave : ∀ x ∈ db.nodes, (if x.id = m'.id then m' else x).id = x.id ∧
        (if x.id = m'.id then m' else x).clusterId = x.clusterId ∧ (if x.id = m'.id then m' else x).name = x.name := by
      intro x hx
      split
      · rename_i he
        rw [List.inj_on_of_nodup_map hdb hx hm (he.trans hkeep.1)]
        exact hkeep
      · exact ⟨rfl, rfl, rfl⟩
    have hrow' : ({ pn with status := m'.status, parent := m'.parentId } : PageNode).row = m' := by
      have hname : pn.name = m'.name := (congrArg (·.name) hrow).trans hkeep.2.2.symm
      have hcluster : pn.cluster = m'.clusterId := (congrArg (·.clusterId) hrow).trans hkeep.2.1.symm
      rw [PageNode.row, hid, hname, hcluster]
    constructor
    · rw [Page.setNode, h.clusters]
      exact List.map_congr_left (fun d _ => (outline_mapNodes hsave d).symm)
    · rw [Page.setNode, Db.save, ← h.nodes, List.map_map, List.map_map]
      apply List.map_congr_left
      intro x _
      rw [Function.comp_apply, Function.comp_apply, apply_ite PageNode.row, hrow', PageNode.row_id, hid]
    · exact h.clusterIds
    · rw [Page.setNode_ids]
      exact h.nodeIds

/-! ## New rows -/

theorem Page.mergeNode_new {update : NodeUpdate} {cluster : PageCluster} {parent : Option PageNode} {structural : Bool}
    (hcluster : page.clusterById update.clusterId = some cluster) (hparent : page.parentNode update.parent = some parent)
    (hnode : page.nodeById update.id = none) :
    mergeNode (page, structural) update = some ({ page.setCluster { cluster with
        nodes := cluster.nodes ++ [update.id], root := if parent = none then some update.id else cluster.root } with
      nodes := page.nodes ++ [⟨update.id, update.name, update.status,
        parent.elim 0 (fun parent => parent.depth + 1), cluster.id, parent.map (·.id)⟩] }, true) := by
  simp only [mergeNode, hcluster, hparent, hnode, Option.bind_eq_bind, Option.bind_some, Option.pure_def]

/-- The outlines after a new row: its own cluster has one node more. -/
theorem outline_addNode (hroot : n.name = ROOT_NODE → db.node? n.clusterId ROOT_NODE = none) (c : Cluster) :
    (db.addNode n).outline c = if n.clusterId = c.id then
      (c, (db.nodesOf c.id).map (·.id) ++ [n.id],
        if n.name = ROOT_NODE then some n.id else (db.node? c.id ROOT_NODE).map (·.id)) else db.outline c := by
  have hnodes : (db.addNode n).nodesOf c.id = if n.clusterId = c.id then db.nodesOf c.id ++ [n] else db.nodesOf c.id := by
    simp only [Db.nodesOf, Db.addNode, List.filter_append, List.filter_cons, List.filter_nil, decide_eq_true_eq]
    split
    · rfl
    · exact List.append_nil _
  have hnode : (db.addNode n).node? c.id ROOT_NODE =
      if n.clusterId = c.id ∧ n.name = ROOT_NODE then some n else db.node? c.id ROOT_NODE := by
    have hfind : (db.addNode n).node? c.id ROOT_NODE = (db.node? c.id ROOT_NODE).or
        ([n].find? (fun n => n.clusterId = c.id ∧ n.name = ROOT_NODE)) := List.find?_append
    rw [hfind]
    by_cases hown : n.clusterId = c.id ∧ n.name = ROOT_NODE
    · rw [if_pos hown, ← hown.1, hroot hown.2, Option.none_or]
      simp [hown.2]
    · rw [if_neg hown]
      simp [hown]
  rw [Db.outline, hnodes, hnode]
  by_cases hcluster : n.clusterId = c.id
  · rw [if_pos hcluster, if_pos hcluster]
    by_cases hname : n.name = ROOT_NODE
    · simp [hcluster, hname]
    · simp [hname]
  · rw [if_neg hcluster, if_neg hcluster, if_neg (fun hboth => hcluster hboth.1), Db.outline]

theorem Page.setCluster_outline (page : Page) (pc : PageCluster) : (page.setCluster pc).clusters.map PageCluster.outline =
    (page.clusters.map PageCluster.outline).map (fun o => if o.1.id = pc.id then pc.outline else o) := by
  rw [setCluster, List.map_map, List.map_map]
  apply List.map_congr_left
  intro d _
  rw [Function.comp_apply, apply_ite PageCluster.outline]
  rfl

/-- A new row, which is the root of its cluster if it has no parent. -/
theorem Shows.addNode (h : Shows db page) (hc : c ∈ db.clusters) (hnc : n.clusterId = c.id)
    (hid : ∀ m ∈ db.nodes, m.id ≠ n.id) (hparentless : n.parentId = none ↔ n.name = ROOT_NODE)
    (hroot : n.name = ROOT_NODE → db.node? n.clusterId ROOT_NODE = none)
    (hparent : ∀ id, n.parentId = some id → ∃ p ∈ db.nodes, p.id = id) (structural : Bool) :
    ∃ page', Page.mergeNode (page, structural) n.update = some (page', true) ∧ Shows (db.addNode n) page' := by
  obtain ⟨pc, hpc, hmem, houtline⟩ := h.clusterById hc
  obtain ⟨parent, hfound, hpid⟩ := h.parentNode hparent
  have hnone := h.nodeById_none hid
  have hparentnone : parent = none ↔ n.name = ROOT_NODE := by
    rw [← hparentless, ← hpid, Option.map_eq_none_iff]
  have hcluster : page.clusterById n.update.clusterId = some pc := by
    rw [← hpc, ← hnc]
    rfl
  refine ⟨_, Page.mergeNode_new hcluster hfound hnone, ?_⟩
  have hpcid : pc.id = c.id := congrArg (fun o => o.1.id) houtline
  have hclusterIds : (db.clusters.map (·.id)).Nodup := h.clusters_ids ▸ h.clusterIds
  constructor
  · rw [Page.setCluster_outline, h.clusters, List.map_map]
    apply List.map_congr_left
    intro d hd
    rw [Function.comp_apply, outline_addNode hroot]
    by_cases hsame : d.id = c.id
    · obtain rfl := List.inj_on_of_nodup_map hclusterIds hd hc hsame
      rw [if_pos hnc]
      refine (if_pos hpcid.symm).trans ?_
      simp only [PageCluster.outline, Db.outline, Prod.mk.injEq] at houtline ⊢
      simp only [houtline, hparentnone, Node.update, and_self]
    · have hne : ¬ n.clusterId = d.id := fun he => hsame (he.symm.trans hnc)
      rw [if_neg hne]
      exact if_neg (fun he => hsame (he.trans hpcid))
  · have hcluster : pc.id = n.clusterId := hpcid.trans hnc.symm
    simp only [Db.addNode, List.map_append, h.nodes, List.map_cons, List.map_nil, PageNode.row, Node.update, hpid, hcluster]
  · rw [Page.setCluster_ids]
    exact h.clusterIds
  · simp only [List.map_append, List.map_cons, List.map_nil]
    rw [List.nodup_append']
    refine ⟨h.nodeIds, List.nodup_singleton _, List.disjoint_singleton.mpr ?_⟩
    intro hin
    rw [h.ids] at hin
    obtain ⟨m, hm, he⟩ := List.mem_map.mp hin
    exact hid m hm he

/-- A new cluster, which has no nodes yet. -/
theorem Shows.addCluster (h : Shows db page) (hl : db.Linked) (netloc : List Char) :
    Shows (db.addCluster (db.newCluster netloc)) (page.mergeCluster (db.newCluster netloc)) := by
  have hnew : ∀ d ∈ page.clusters, d.id ≠ (db.newCluster netloc).id := by
    intro d hd he
    have hmem : d.id ∈ db.clusters.map (·.id) := h.clusters_ids ▸ List.mem_map_of_mem hd
    obtain ⟨c, hc, hid⟩ := List.mem_map.mp hmem
    have hle := hl.cluster_id_le hc
    simp only [Db.newCluster] at he
    omega
  have hnone : page.clusterById (db.newCluster netloc).id = none :=
    List.find?_eq_none.mpr (fun d hd he => hnew d hd (of_decide_eq_true he))
  have houtline : db.outline (db.newCluster netloc) = (db.newCluster netloc, [], none) := by
    have hnodes : db.nodesOf (db.newCluster netloc).id = [] := by
      apply List.filter_eq_nil_iff.mpr
      intro n hn he
      exact newCluster_fresh hl netloc hn (of_decide_eq_true he)
    have hroot : db.node? (db.newCluster netloc).id ROOT_NODE = none := by
      apply List.find?_eq_none.mpr
      intro n hn he
      exact newCluster_fresh hl netloc hn (of_decide_eq_true he).1
    rw [Db.outline, hnodes, hroot]
    rfl
  simp only [Page.mergeCluster, hnone]
  constructor
  · have hlast : (db.addCluster (db.newCluster netloc)).clusters.map (db.addCluster (db.newCluster netloc)).outline =
        db.clusters.map db.outline ++ [db.outline (db.newCluster netloc)] := List.map_append
    rw [hlast, houtline, List.map_append, h.clusters]
    rfl
  · exact h.nodes
  · simp only [List.map_append, List.map_cons, List.map_nil]
    rw [List.nodup_append']
    refine ⟨h.clusterIds, List.nodup_singleton _, List.disjoint_singleton.mpr ?_⟩
    intro hin
    obtain ⟨d, hd, he⟩ := List.mem_map.mp hin
    exact hnew d hd he
  · exact h.nodeIds

/-! ## Depths and counts -/

/-- The page after the clusters with these ids were measured. -/
noncomputable def measured (db : Db) (page : Page) (done : List Nat) : Page where
  clusters := page.clusters.map (fun c =>
    if c.id ∈ done then { c with count := (db.nodesOf c.id).length, maxDepth := db.maxDepth c.id } else c)
  nodes := page.nodes.map (fun n => { n with depth := if n.cluster ∈ done then db.depth n.id else n.depth })

theorem setDepth_eq (page : Page) (visit : Nat × Nat) : page.setDepth visit =
    { page with nodes := page.nodes.map (fun n => { n with depth := if n.id = visit.1 then visit.2 else n.depth }) } := by
  rw [Page.setDepth]
  congr 1
  apply List.map_congr_left
  intro n _
  split
  · rfl
  · rfl

theorem foldl_setDepth (visits : List (Nat × Nat)) (hdepth : ∀ v ∈ visits, v.2 = db.depth v.1) (page : Page) :
    visits.foldl Page.setDepth page = { page with nodes := page.nodes.map (fun n =>
      { n with depth := if n.id ∈ visits.map Prod.fst then db.depth n.id else n.depth }) } := by
  induction visits using List.reverseRecOn with
  | nil =>
    simp only [List.foldl_nil, List.map_nil, List.not_mem_nil, if_false]
    exact congrArg (Page.mk page.clusters) (List.map_id'' (fun _ => rfl) _).symm
  | append_singleton visits v ih =>
    have hlast : v.2 = db.depth v.1 := hdepth v (List.mem_append_right _ (List.mem_singleton_self v))
    rw [List.foldl_append, List.foldl_cons, List.foldl_nil, ih (fun w hw => hdepth w (List.mem_append_left _ hw)),
      setDepth_eq, List.map_map]
    congr 1
    apply List.map_congr_left
    intro n _
    have hnew : (if n.id = v.1 then v.2 else if n.id ∈ visits.map Prod.fst then db.depth n.id else n.depth) =
        if n.id ∈ (visits ++ [v]).map Prod.fst then db.depth n.id else n.depth := by
      have hmem : n.id ∈ (visits ++ [v]).map Prod.fst ↔ n.id ∈ visits.map Prod.fst ∨ n.id = v.1 := by
        rw [List.map_append, List.mem_append, List.map_cons, List.map_nil, List.mem_singleton]
      simp only [hmem]
      by_cases he : n.id = v.1
      · rw [if_pos he, if_pos (.inr he), hlast, he]
      · simp only [he, or_false, if_false]
    rw [Function.comp_apply, hnew]

theorem Shows.children (h : Shows db page) (done : List Nat) :
    (measured db page done).children = childrenOf db.nodes := by
  funext id
  rw [Page.children, childrenOf, ← h.nodes, measured, List.filter_map, List.filter_map, List.map_map, List.map_map]
  rfl

/-- The traversal of a cluster visits its nodes, each at its depth. -/
theorem Shows.descend (h : Shows db page) (hl : db.Linked) (hr : db.Rooted) {pc : PageCluster} (hpc : pc ∈ page.clusters)
    (done : List Nat) : ∃ visits, (measured db page done).descend pc = some visits ∧
      (visits.map Prod.fst).Perm ((db.nodesOf pc.id).map (·.id)) ∧ ∀ v ∈ visits, v.2 = db.depth v.1 := by
  obtain ⟨c, hc, houtline⟩ := List.mem_map.mp (h.clusters ▸ List.mem_map_of_mem hpc : pc.outline ∈ db.clusters.map _)
  have hid : pc.id = c.id := congrArg (fun o => o.1.id) houtline.symm
  obtain ⟨r, hmem, hcluster, hname⟩ := hr.root c hc
  have hroot : pc.root = some r.id := by
    have hsame : pc.root = (db.node? c.id ROOT_NODE).map (·.id) := congrArg (fun o => o.2.2) houtline.symm
    rw [hsame, ← hcluster, ← hname, Db.node?_of_mem hl hmem, Option.map_some]
  have hS : ∀ id ∈ (db.nodesOf pc.id).map (·.id), ∃ n ∈ db.nodes, n.id = id ∧ n.clusterId = pc.id := by
    intro id hid
    obtain ⟨n, hn, rfl⟩ := List.mem_map.mp hid
    obtain ⟨hn, he⟩ := List.mem_filter.mp hn
    exact ⟨n, hn, rfl, of_decide_eq_true he⟩
  have hin : ∀ n ∈ db.nodes, n.clusterId = pc.id → n.id ∈ (db.nodesOf pc.id).map (·.id) :=
    fun n hn he => List.mem_map_of_mem (List.mem_filter.mpr ⟨hn, decide_eq_true he⟩)
  have hnodup : ((db.nodesOf pc.id).map (·.id)).Nodup := hl.nodes_nodup.sublist (List.filter_sublist.map _)
  rw [Page.descend, h.children, hroot]
  have hvisits : ∃ visits, Forest.walk (childrenOf db.nodes) (fun rest new => new.reverse ++ rest)
      (measured db page done).nodes.length ([r.id].map (fun root => (root, 0))) = some visits ∧
      (visits.map Prod.fst).Perm ((db.nodesOf pc.id).map (·.id)) ∧ ∀ v ∈ visits, Forest.Depth db.parentIdOf v.1 v.2 := by
    apply Forest.walk_visits
    · exact List.nodup_singleton _
    · intro x
      rw [List.mem_singleton]
      constructor
      · rintro rfl
        exact ⟨hin r hmem (hcluster.trans hid.symm), (parentIdOf_mem hl hmem).trans (hl.root r hmem hname)⟩
      · rintro ⟨hx, hnone⟩
        obtain ⟨n, hn, rfl, hsame⟩ := hS x hx
        rw [parentIdOf_mem hl hn, parentId_none_iff hl hn] at hnone
        rw [hl.eq_of_name hn hmem (hsame.trans (hid.trans hcluster.symm)) (hnone.trans hname.symm)]
    · apply children_spec hl
      · intro id hid
        obtain ⟨n, hn, he, -⟩ := hS id hid
        exact ⟨n, hn, he⟩
      · intro n hn id hid hparent
        obtain ⟨p, hp, rfl, hsame⟩ := hS id hid
        obtain ⟨q, hq, hqid, hqcluster, -⟩ := hl.parent_mem hn hparent
        rw [hl.eq_of_id hq hp hqid] at hqcluster
        exact hin n hn (hqcluster.symm.trans hsame)
    · intro rest new
      exact ((List.reverse_perm new).append_right rest).trans List.perm_append_comm
    · exact hnodup
    · intro x hx y hparent
      obtain ⟨n, hn, rfl, hsame⟩ := hS x hx
      rw [parentIdOf_mem hl hn] at hparent
      obtain ⟨p, hp, rfl, hpcluster, -⟩ := hl.parent_mem hn hparent
      exact hin p hp (hpcluster.trans hsame)
    · intro x hx
      obtain ⟨n, hn, rfl, -⟩ := hS x hx
      exact exists_depth hl hn
    · have hlength : (measured db page done).nodes.length = db.nodes.length := by
        rw [measured, List.length_map, ← h.nodes, List.length_map]
      rw [hlength, List.length_map]
      exact List.length_filter_le _ _
  obtain ⟨visits, hwalk, hperm, hdepth⟩ := hvisits
  exact ⟨visits, hwalk, hperm, fun v hv => (hdepth v hv).depth_eq.symm⟩

/-- One more cluster is measured. -/
theorem Shows.measure (h : Shows db page) (hl : db.Linked) (hr : db.Rooted) {pc : PageCluster} (hpc : pc ∈ page.clusters)
    (done : List Nat) : (measured db page done).measure pc = some (measured db page (done ++ [pc.id])) := by
  obtain ⟨visits, hdescend, hperm, hdepth⟩ := h.descend hl hr hpc done
  have hcount : pc.nodes.length = (db.nodesOf pc.id).length := by
    obtain ⟨c, -, houtline⟩ := List.mem_map.mp (h.clusters ▸ List.mem_map_of_mem hpc : pc.outline ∈ db.clusters.map _)
    have hid : c.id = pc.id := congrArg (fun o => o.1.id) houtline
    have hnodes : (db.nodesOf c.id).map (·.id) = pc.nodes := congrArg (fun o => o.2.1) houtline
    rw [← hnodes, List.length_map, hid]
  have hmax : visits.foldl (fun maxDepth visit => max maxDepth visit.2) 0 = db.maxDepth pc.id := by
    have hdepths : visits.map Prod.snd = (visits.map Prod.fst).map db.depth := by
      rw [List.map_map]
      exact List.map_congr_left hdepth
    have hsame := (hperm.map db.depth).foldl_eq (f := max) 0
    rw [← hdepths, List.foldl_map, List.map_map] at hsame
    exact hsame
  simp only [Page.measure, hdescend, Option.bind_eq_bind, Option.bind_some, Option.pure_def, foldl_setDepth visits hdepth,
    hcount, hmax]
  have hclusters : (measured db page done).clusters.map (fun d => if d.id = pc.id then
      ({ pc with count := (db.nodesOf pc.id).length, maxDepth := db.maxDepth pc.id } : PageCluster) else d) =
      (measured db page (done ++ [pc.id])).clusters := by
    rw [measured, measured, List.map_map]
    apply List.map_congr_left
    intro d hd
    simp only [Function.comp_apply, apply_ite PageCluster.id, ite_self, List.mem_append, List.mem_singleton]
    by_cases he : d.id = pc.id
    · obtain rfl := List.inj_on_of_nodup_map h.clusterIds hd hpc he
      simp only [or_true, if_true]
    · simp only [he, or_false, if_false]
  have hnodes : (measured db page done).nodes.map (fun n => { n with
      depth := if n.id ∈ visits.map Prod.fst then db.depth n.id else n.depth }) =
      (measured db page (done ++ [pc.id])).nodes := by
    rw [measured, measured, List.map_map]
    apply List.map_congr_left
    intro n hn
    have hrow : n.row ∈ db.nodes := h.nodes ▸ List.mem_map_of_mem hn
    have hvisited : n.id ∈ visits.map Prod.fst ↔ n.cluster = pc.id := by
      rw [hperm.mem_iff, List.mem_map]
      constructor
      · rintro ⟨m, hm, he⟩
        obtain ⟨hm, hcluster⟩ := List.mem_filter.mp hm
        rw [hl.eq_of_id hm hrow he] at hcluster
        exact of_decide_eq_true hcluster
      · intro hcluster
        exact ⟨n.row, List.mem_filter.mpr ⟨hrow, decide_eq_true hcluster⟩, rfl⟩
    simp only [Function.comp_apply, hvisited, List.mem_append, List.mem_singleton]
    by_cases he : n.cluster = pc.id
    · simp only [he, or_true, if_true]
    · simp only [he, or_false, if_false]
  rw [Page.setCluster, hclusters, hnodes]

theorem Shows.measureAll (h : Shows db page) (hl : db.Linked) (hr : db.Rooted) (clusters : List PageCluster)
    (hclusters : ∀ pc ∈ clusters, pc ∈ page.clusters) (done : List Nat) :
    clusters.foldlM Page.measure (measured db page done) = some (measured db page (done ++ clusters.map (·.id))) := by
  induction clusters generalizing done with
  | nil => simp
  | cons pc clusters ih =>
    rw [List.foldlM_cons, h.measure hl hr (hclusters pc List.mem_cons_self) done, Option.bind_eq_bind, Option.bind_some,
      ih (fun d hd => hclusters d (List.mem_cons_of_mem _ hd))]
    simp

theorem measured_nil (db : Db) (page : Page) : measured db page [] = page := by
  simp only [measured, List.not_mem_nil, if_false, List.map_id_fun', id]

/-- A page with every cluster measured is that of a reload. -/
theorem Shows.measured_all (h : Shows db page) (hl : db.Linked) :
    measured db page (page.clusters.map (·.id)) = db.page := by
  have hclusters : (measured db page (page.clusters.map (·.id))).clusters = db.page.clusters := by
    calc (measured db page (page.clusters.map (·.id))).clusters
        = (page.clusters.map PageCluster.outline).map (fun o =>
            (⟨o.1.id, o.1.name, (db.nodesOf o.1.id).length, db.maxDepth o.1.id, o.2.1, o.2.2⟩ : PageCluster)) := by
          rw [measured, List.map_map]
          apply List.map_congr_left
          intro pc hpc
          rw [if_pos (List.mem_map_of_mem hpc)]
          rfl
      _ = db.page.clusters := by
          rw [h.clusters, List.map_map]
          rfl
  have hnodes : (measured db page (page.clusters.map (·.id))).nodes = db.page.nodes := by
    calc (measured db page (page.clusters.map (·.id))).nodes
        = (page.nodes.map PageNode.row).map (fun n =>
            (⟨n.id, n.name, n.status, db.depth n.id, n.clusterId, n.parentId⟩ : PageNode)) := by
          rw [measured, List.map_map]
          apply List.map_congr_left
          intro n hn
          obtain ⟨c, hc, he⟩ := hl.clustered n.row (h.nodes ▸ List.mem_map_of_mem hn)
          have hmem : n.cluster ∈ page.clusters.map (·.id) := by
            rw [h.clusters_ids]
            exact List.mem_map.mpr ⟨c, hc, he⟩
          rw [if_pos hmem]
          rfl
      _ = db.page.nodes := by rw [h.nodes, Db.page]
  calc measured db page (page.clusters.map (·.id))
      = ⟨(measured db page (page.clusters.map (·.id))).clusters, (measured db page (page.clusters.map (·.id))).nodes⟩ := rfl
    _ = db.page := by rw [hclusters, hnodes]

/-- After a change of the structure the page is that of a reload. -/
theorem Shows.rebuildStructure (h : Shows db page) (hl : db.Linked) (hr : db.Rooted) :
    page.rebuildStructure = some db.page := by
  have hall := h.measureAll hl hr page.clusters (fun _ hpc => hpc) []
  rw [measured_nil, List.nil_append, h.measured_all hl] at hall
  exact hall

/-! ## A new status -/

theorem parentIdOf_restatus (id : Nat) (status : NodeStatus) :
    Db.parentIdOf { db with nodes := db.nodes.map (restatus id status) } = db.parentIdOf := by
  funext x
  have hfind : Db.nodeById { db with nodes := db.nodes.map (restatus id status) } x =
      (db.nodeById x).map (restatus id status) := List.find?_map
  rw [Db.parentIdOf, hfind, Db.parentIdOf]
  cases db.nodeById x with
  | none => rfl
  | some n => rfl

/-- What a reload shows of a cluster follows from its outline and the depths. -/
theorem page_clusters (db : Db) : db.page.clusters = db.clusters.map (fun c =>
    (⟨c.id, c.name, (db.outline c).2.1.length, ((db.outline c).2.1.map db.depth).foldl max 0, (db.outline c).2.1,
      (db.outline c).2.2⟩ : PageCluster)) := by
  apply List.map_congr_left
  intro c _
  simp only [Db.outline, Db.maxDepth, List.length_map, List.map_map]
  rfl

theorem page_restatus (h : db.Linked) (hn : n ∈ db.nodes) (status : NodeStatus) :
    (db.save { n with status }).page =
      db.page.setNode ⟨n.id, n.name, status, db.depth n.id, n.clusterId, n.parentId⟩ := by
  rw [save_eq h hn]
  have hdepth : Db.depth { db with nodes := db.nodes.map (restatus n.id status) } = db.depth := by
    funext id
    rw [Db.depth, parentIdOf_restatus, Db.depth]
  have hclusters : (Db.page { db with nodes := db.nodes.map (restatus n.id status) }).clusters = db.page.clusters := by
    rw [page_clusters, page_clusters, hdepth]
    apply List.map_congr_left
    intro c _
    rw [outline_mapNodes (f := restatus n.id status) (fun _ _ => ⟨rfl, rfl, rfl⟩)]
  have hnodes : (Db.page { db with nodes := db.nodes.map (restatus n.id status) }).nodes =
      db.page.nodes.map (fun m => if m.id = n.id then
        (⟨n.id, n.name, status, db.depth n.id, n.clusterId, n.parentId⟩ : PageNode) else m) := by
    rw [Db.page, hdepth, Db.page, List.map_map, List.map_map]
    apply List.map_congr_left
    intro m hm
    simp only [Function.comp_apply, restatus]
    by_cases he : m.id = n.id
    · obtain rfl := h.eq_of_id hm hn he
      rw [if_pos rfl, if_pos rfl]
    · rw [if_neg he, if_neg he]
  rw [Page.setNode, ← hclusters, ← hnodes]

/-! ## A node in its place -/

theorem Page.page_nodeById (h : db.Linked) (hn : n ∈ db.nodes) :
    db.page.nodeById n.id = some ⟨n.id, n.name, n.status, db.depth n.id, n.clusterId, n.parentId⟩ := by
  have hfind := h.nodeById hn
  rw [nodeById, Db.page, List.find?_map]
  exact congrArg (Option.map _) hfind

theorem Db.Linked.parent_exists (h : db.Linked) (hn : n ∈ db.nodes) :
    ∀ id, n.parentId = some id → ∃ p ∈ db.nodes, p.id = id := by
  intro id hparent
  obtain ⟨p, hp, hid, -⟩ := h.parent_mem hn hparent
  exact ⟨p, hp, hid⟩

/-- A status alone leaves the structure, and the depths, as they are. -/
theorem merge_status (h : db.Linked) (hn : n ∈ db.nodes) (status : NodeStatus) :
    db.page.merge ⟨[], [{ n with status }.update]⟩ = some (db.save { n with status }).page := by
  obtain ⟨c, hc, hcluster⟩ := h.clustered n hn
  obtain ⟨pc, hpc, -, -⟩ := (page_shows h).clusterById hc
  obtain ⟨parent, hfound, hpid⟩ := (page_shows h).parentNode (h.parent_exists hn)
  have hfoundCluster : db.page.clusterById ({ n with status } : Node).update.clusterId = some pc := hcluster ▸ hpc
  have hfoundNode : db.page.nodeById ({ n with status } : Node).update.id = _ := Page.page_nodeById h hn
  have hnode : Page.mergeNode (db.page, false) ({ n with status } : Node).update = _ :=
    Page.mergeNode_known hfoundCluster hfound hfoundNode
  rw [Page.merge, List.foldl_nil, List.foldlM_cons, hnode, page_restatus h hn]
  simp [hpid, Node.update]

/-! ## A new node -/

theorem reparent_nil (db : Db) (id : Nat) : db.reparent [] id = db := by
  simp only [Db.reparent, List.not_mem_nil, if_false, List.map_id_fun', id_eq]

theorem reparent_save (h : (db.nodes.map (·.id)).Nodup) (hm : m ∈ db.nodes) (done : List Nat) (id : Nat) :
    (db.reparent done id).save { m with parentId := some id } = db.reparent (done ++ [m.id]) id := by
  have hnodes : ((db.reparent done id).save { m with parentId := some id }).nodes =
      (db.reparent (done ++ [m.id]) id).nodes := by
    rw [Db.save, Db.reparent, Db.reparent, List.map_map]
    apply List.map_congr_left
    intro x hx
    simp only [Function.comp_apply, apply_ite Node.id, ite_self, List.mem_append, List.mem_singleton]
    by_cases he : x.id = m.id
    · obtain rfl := List.inj_on_of_nodup_map h hx hm he
      simp only [or_true, if_true]
    · simp only [he, or_false, if_false]
  exact congrArg (Db.mk db.clusters) hnodes

/-- The moved rows of an update, one after the other. -/
theorem Shows.adopt (hl : db.Linked) (hn : n ∈ db.nodes) (moved : List Node) (hmoved : ∀ d ∈ moved, d ∈ db.nodes)
    (done : List Nat) (h : Shows (db.reparent done n.id) page) :
    ∃ page', (moved.map (fun d => { d with parentId := some n.id }.update)).foldlM Page.mergeNode (page, true) =
      some (page', true) ∧ Shows (db.reparent (done ++ moved.map (·.id)) n.id) page' := by
  induction moved generalizing done page with
  | nil => exact ⟨page, rfl, by simpa using h⟩
  | cons d moved ih =>
    have hd := hmoved d List.mem_cons_self
    obtain ⟨c, hc, hcluster⟩ := hl.clustered d hd
    have hmc : c.id = ({ d with parentId := some n.id } : Node).clusterId := hcluster
    have hrow : (if d.id ∈ done then { d with parentId := some n.id } else d) ∈ (db.reparent done n.id).nodes :=
      List.mem_map_of_mem hd
    have hkeep : ({ d with parentId := some n.id } : Node).id = (if d.id ∈ done then { d with parentId := some n.id } else d).id ∧
        ({ d with parentId := some n.id } : Node).clusterId =
          (if d.id ∈ done then { d with parentId := some n.id } else d).clusterId ∧
        ({ d with parentId := some n.id } : Node).name = (if d.id ∈ done then { d with parentId := some n.id } else d).name := by
      split
      · exact ⟨rfl, rfl, rfl⟩
      · exact ⟨rfl, rfl, rfl⟩
    have hparent : ∀ id, ({ d with parentId := some n.id } : Node).parentId = some id →
        ∃ p ∈ (db.reparent done n.id).nodes, p.id = id := by
      intro id he
      refine ⟨_, List.mem_map_of_mem hn, ?_⟩
      rw [apply_ite Node.id, ite_self]
      exact Option.some.inj he
    obtain ⟨page₁, hmerge, hshows⟩ := h.save hc hmc hrow hkeep hparent true
    rw [reparent_save hl.nodes_nodup hd] at hshows
    obtain ⟨page', hrest, hshows'⟩ := ih (fun e he => hmoved e (List.mem_cons_of_mem _ he)) _ hshows
    refine ⟨page', ?_, by simpa using hshows'⟩
    rw [List.map_cons, List.foldlM_cons, hmerge, Bool.true_or, Option.bind_eq_bind, Option.bind_some, hrest]

/-- A new node and the rows it adopts. -/
theorem Shows.inserted (h : Shows db page) (hl : db.Linked) (hid : n.id = db.nodes.length + 1)
    (hlinked : (db.addNode n).Linked) (hname : n.name ≠ ROOT_NODE) {moved : List Node}
    (hmoved : moved.Perm (db.nodes.filter (db.adopts n.clusterId n.name n.id))) (structural : Bool) :
    ∃ page', (n.update :: moved.map (fun d => { d with parentId := some n.id }.update)).foldlM Page.mergeNode
      (page, structural) = some (page', true) ∧ Shows (db.inserted n) page' := by
  have hn : n ∈ (db.addNode n).nodes := List.mem_append_right _ (List.mem_singleton_self n)
  obtain ⟨c, hc, hcluster⟩ := hlinked.clustered n hn
  have hfresh : ∀ m ∈ db.nodes, m.id ≠ n.id := by
    intro m hm
    have hle := hl.node_id_le hm
    omega
  have hparent : ∀ id, n.parentId = some id → ∃ p ∈ db.nodes, p.id = id := by
    intro id hparent
    obtain ⟨p, hp, hpid, -, -, hshorter⟩ := hlinked.parent_mem hn hparent
    obtain hp | hp := List.mem_append.mp hp
    · exact ⟨p, hp, hpid⟩
    · -- the node is not shorter than itself
      rw [List.mem_singleton.mp hp] at hshorter
      obtain hroot | hlt := hshorter
      · exact absurd hroot hname
      · omega
  obtain ⟨page₁, hnew, hshows⟩ := h.addNode hc hcluster.symm hfresh (parentId_none_iff hlinked hn)
    (fun he => absurd he hname) hparent structural
  have hin : ∀ d ∈ moved, d ∈ (db.addNode n).nodes :=
    fun d hd => List.mem_append_left _ (List.mem_filter.mp (hmoved.mem_iff.mp hd)).1
  obtain ⟨page', hadopt, hshows'⟩ :=
    Shows.adopt hlinked hn moved hin [] ((reparent_nil (db.addNode n) n.id).symm ▸ hshows)
  rw [List.nil_append, reparent_addNode hl hlinked hid (hmoved.trans (.of_eq (adopted_addNode hl hid).symm))] at hshows'
  refine ⟨page', ?_, hshows'⟩
  rw [List.foldlM_cons, hnew, Option.bind_eq_bind, Option.bind_some, hadopt]

/-- A new cluster and its root, whatever its status. -/
theorem addRoot_shows (h : db.Linked) (root : Node) (hid : root.id = db.nodes.length + 1)
    (hcluster : root.clusterId = (db.newCluster netloc).id) (hname : root.name = ROOT_NODE) (hparent : root.parentId = none) :
    ∃ page', Page.mergeNode (db.page.mergeCluster (db.newCluster netloc), false) root.update = some (page', true) ∧
      Shows ((db.addCluster (db.newCluster netloc)).addNode root) page' := by
  apply ((page_shows h).addCluster h netloc).addNode (List.mem_append_right _ (List.mem_singleton_self _)) hcluster
  · intro m hm
    have hle := h.node_id_le hm
    omega
  · simp [hname, hparent]
  · intro _
    apply List.find?_eq_none.mpr
    intro m hm he
    exact newCluster_fresh h netloc hm ((of_decide_eq_true he).1.trans hcluster)
  · intro id he
    rw [hparent] at he
    cases he

/-! ## Updates -/

/-- What the update of a new node tells, in order. -/
theorem entries_created {updates : Dict Nat NodeUpdate} {moved : List Node}
    (hnodup : (updates.keys ++ n.id :: moved.map (·.id)).Nodup) :
    ((moved.map (fun m => { m with parentId := some n.id })).foldl (fun updates d => updates.set d.id d.update)
      (updates.set n.id n.update)).entries.map Prod.snd =
      updates.entries.map Prod.snd ++ n.update :: moved.map (fun d => { d with parentId := some n.id }.update) := by
  have hall := Dict.entries_foldl_set
    ((n.id, n.update) :: moved.map (fun d => (d.id, { d with parentId := some n.id }.update))) updates
    (by simpa [Dict.keys, Function.comp_def] using hnodup)
  rw [List.foldl_cons, List.foldl_map] at hall
  rw [List.foldl_map, hall]
  simp

/-- An update from a new node on brings the page up to date. -/
theorem merge_created {db₁ : Db} {clusters : List Cluster} {before : List NodeUpdate} {moved : List Node} {structural : Bool}
    (hbefore : before.foldlM Page.mergeNode (clusters.foldl Page.mergeCluster db.page, false) = some (page, structural))
    (h : Shows db₁ page) (hl : db₁.Linked) (hr : db₁.Rooted) (hid : n.id = db₁.nodes.length + 1)
    (hlinked : (db₁.addNode n).Linked) (hname : n.name ≠ ROOT_NODE)
    (hmoved : moved.Perm (db₁.nodes.filter (db₁.adopts n.clusterId n.name n.id))) :
    db.page.merge ⟨clusters, before ++ n.update :: moved.map (fun d => { d with parentId := some n.id }.update)⟩ =
      some (db₁.inserted n).page := by
  obtain ⟨page', hmerge, hshows⟩ := h.inserted hl hid hlinked hname hmoved structural
  rw [Page.merge, List.foldlM_append, hbefore, Option.bind_eq_bind, Option.bind_eq_bind, Option.bind_some, hmerge,
    Option.bind_some]
  exact hshows.rebuildStructure (hl.inserted hlinked) (hr.inserted hlinked)

/-- An event whose cluster was there. -/
theorem Handled.merge {status : NodeStatus} {updates' : Dict Nat NodeUpdate} {db' : Db} {name : Name}
    (hstep : Handled db c name status .empty db' updates') (h : db.Linked) (hr : db.Rooted) :
    match broadcast [] (updates'.entries.map Prod.snd) with
    | none => db' = db
    | some update => db.page.merge update = some db'.page := by
  cases hstep with
  | @status n _ _ hn _ _ hstatus =>
    unfold updateStatus at hstatus
    split at hstatus
    · obtain ⟨rfl, rfl⟩ := Prod.mk.inj hstatus
      rfl
    · obtain ⟨rfl, rfl⟩ := Prod.mk.inj hstatus
      exact merge_status h hn status
  | @created p n moved _ hname _ hn hlinked hmoved =>
    have hid : n.id = db.nodes.length + 1 := by rw [hn]; rfl
    have hnodup : ((Dict.empty : Dict Nat NodeUpdate).keys ++ n.id :: moved.map (·.id)).Nodup := by
      have hids : (moved.map (·.id)).Perm ((db.nodes.filter (db.adopts n.clusterId n.name n.id)).map (·.id)) :=
        hmoved.map _
      refine List.nodup_cons.mpr ⟨?_, hids.nodup_iff.mpr (h.nodes_nodup.sublist (List.filter_sublist.map _))⟩
      intro hin
      obtain ⟨m, hm, he⟩ := List.mem_map.mp (hids.mem_iff.mp hin)
      have hle := h.node_id_le (List.mem_filter.mp hm).1
      omega
    rw [entries_created hnodup]
    exact merge_created rfl (page_shows h) h hr hid hlinked (by rw [hn]; exact hname) hmoved

theorem save_addNode (hid : ∀ m ∈ db.nodes, m.id ≠ n.id) (status : NodeStatus) :
    (db.addNode n).save { n with status } = db.addNode { n with status } := by
  have hnodes : db.nodes.map (fun m => if m.id = n.id then { n with status } else m) = db.nodes := by
    calc db.nodes.map (fun m => if m.id = n.id then { n with status } else m) = db.nodes.map id := by
          apply List.map_congr_left
          intro m hm
          rw [if_neg (hid m hm), id_eq]
      _ = db.nodes := List.map_id _
  simp only [Db.save, Db.addNode, List.map_append, hnodes, List.map_cons, List.map_nil, if_true]

/-- An event whose cluster was created with its root. -/
theorem Handled.merge_root {status : NodeStatus} {updates' : Dict Nat NodeUpdate} {db' : Db} {name : Name} {root : Node}
    (h : db.Linked) (hroot : root = ((db.addCluster (db.newCluster netloc)).newNode ROOT_NODE (db.newCluster netloc).id .pending none))
    (hlinked : ((db.addCluster (db.newCluster netloc)).addNode root).Linked)
    (hrooted : ((db.addCluster (db.newCluster netloc)).addNode root).Rooted)
    (hstep : Handled ((db.addCluster (db.newCluster netloc)).addNode root) (db.newCluster netloc) name status
      (Dict.empty.set root.id root.update) db' updates') :
    ∃ update, broadcast [db.newCluster netloc] (updates'.entries.map Prod.snd) = some update ∧
      db.page.merge update = some db'.page := by
  have hid : root.id = db.nodes.length + 1 := by rw [hroot]; rfl
  have hcluster : root.clusterId = (db.newCluster netloc).id := by rw [hroot]; rfl
  have hname : root.name = ROOT_NODE := by rw [hroot]; rfl
  have hparent : root.parentId = none := by rw [hroot]; rfl
  have honly : ∀ m ∈ ((db.addCluster (db.newCluster netloc)).addNode root).nodes,
      m.clusterId = (db.newCluster netloc).id → m = root := by
    intro m hm hmcluster
    obtain hm | hm := List.mem_append.mp hm
    · exact absurd hmcluster (newCluster_fresh h netloc hm)
    · exact List.mem_singleton.mp hm
  cases hstep with
  | @status n _ _ hn hncluster _ hstatus =>
    obtain rfl := honly n hn hncluster
    have hfresh : ∀ m ∈ (db.addCluster (db.newCluster netloc)).nodes, m.id ≠ n.id := by
      intro m hm
      have hle := h.node_id_le hm
      omega
    have hpending : ¬ n.status = .succeeded := by
      rw [hroot]
      exact NodeStatus.noConfusion
    rw [updateStatus, if_neg hpending] at hstatus
    obtain ⟨rfl, rfl⟩ := Prod.mk.inj hstatus
    have hl := hlinked.setStatus hn status
    have hr := hrooted.setStatus hlinked hn status
    obtain ⟨page', hmerge, hshows⟩ := addRoot_shows h { n with status } hid hcluster hname hparent
    have hrow := save_addNode hfresh status
    rw [hrow] at hl hr ⊢
    refine ⟨⟨[db.newCluster netloc], [{ n with status }.update]⟩, by simp [broadcast, Dict.set, Dict.keys, Dict.empty, Dict.replaceAt], ?_⟩
    rw [Page.merge, List.foldl_cons, List.foldl_nil, List.foldlM_cons, hmerge]
    exact hshows.rebuildStructure hl hr
  | @created p n moved _ hnname _ hn hnlinked hmoved =>
    have hnid : n.id = ((db.addCluster (db.newCluster netloc)).addNode root).nodes.length + 1 := by rw [hn]; rfl
    have hncluster : n.clusterId = (db.newCluster netloc).id := by rw [hn]; rfl
    have hnroot : n.name ≠ ROOT_NODE := by rw [hn]; exact hnname
    -- the root is alone in its cluster, and no root is adopted
    have hnone : moved = [] := by
      apply List.eq_nil_iff_forall_not_mem.mpr
      intro m hm
      obtain ⟨hm, hadopts⟩ := List.mem_filter.mp (hmoved.mem_iff.mp hm)
      obtain ⟨hmcluster, hmname, -⟩ := adopts_fits hlinked hm hadopts
      exact hmname (honly m hm (hmcluster.trans hncluster) ▸ hname)
    subst hnone
    obtain ⟨page', hmerge, hshows⟩ := addRoot_shows h root hid hcluster hname hparent
    have hnodup : ((Dict.empty.set root.id root.update : Dict Nat NodeUpdate).keys ++ n.id :: ([] : List Node).map (·.id)).Nodup := by
      have hlength : ((db.addCluster (db.newCluster netloc)).addNode root).nodes.length = db.nodes.length + 1 := by
        simp [Db.addNode, Db.addCluster]
      have hne : root.id ≠ n.id := by omega
      have hkeys : (Dict.empty.set root.id root.update : Dict Nat NodeUpdate).keys = [root.id] := by
        rw [Dict.keys_set]
        rfl
      rw [hkeys]
      simpa using hne
    have hbefore : [root.update].foldlM Page.mergeNode ([db.newCluster netloc].foldl Page.mergeCluster db.page, false) =
        some (page', true) := by
      rw [List.foldlM_cons, List.foldl_cons, List.foldl_nil, hmerge]
      rfl
    refine ⟨⟨[db.newCluster netloc], [root.update] ++ n.update :: ([] : List Node).map
      (fun d => { d with parentId := some n.id }.update)⟩, ?_, ?_⟩
    · rw [entries_created hnodup, broadcast, if_neg (by simp)]
      rfl
    · exact merge_created hbefore hshows hlinked hrooted hnid hnlinked hnroot hmoved

/-- One event: what it broadcasts brings the page up to date, and without a
broadcast nothing has changed. -/
theorem handle_updates (h : db.Linked) (hr : db.Rooted) (valid : List Char → Bool) (request : Request) :
    (∀ update, (request.handle valid db).2 = some update → db.page.merge update = some (request.handle valid db).1.page) ∧
      ((request.handle valid db).2 = none → (request.handle valid db).1 = db) := by
  unfold Request.handle
  cases hsend : sendEvent valid request.engine db request.event with
  | none => simp
  | some result =>
    obtain ⟨db', sent⟩ := result
    obtain ⟨parts, name, c, root, db₁, created, updates, updates', -, -, hensured, hstep, hsent⟩ := sendEvent_cases h hr hsend
    simp only [Option.getD_some]
    obtain ⟨rfl, rfl, rfl⟩ | ⟨hnew, hc, hroot, rfl, rfl, rfl⟩ := hensured.change
    · have hmerge := hstep.merge h hr
      rw [← hsent] at hmerge
      cases sent with
      | none => simpa using hmerge
      | some update => simpa using hmerge
    · subst hc
      obtain ⟨update, hbroadcast, hmerge⟩ := Handled.merge_root h hroot hensured.linked hensured.rooted hstep
      rw [hbroadcast] at hsent
      subst hsent
      simpa using hmerge

theorem merge_broadcasts (h : db.Linked) (hr : db.Rooted) (valid : List Char → Bool) (requests : List Request) :
    (broadcasts valid db requests).foldlM Page.merge db.page = some (handleAll valid db requests).page := by
  induction requests generalizing db with
  | nil => rfl
  | cons request requests ih =>
    obtain ⟨hmerge, hunchanged⟩ := handle_updates h hr valid request
    obtain ⟨hl', hr'⟩ := handle_linked h hr valid request
    have hrest := ih hl' hr'
    rw [broadcasts, List.foldlM_append]
    cases hsent : (request.handle valid db).2 with
    | none =>
      rw [hunchanged hsent] at hrest ⊢
      rw [show handleAll valid db (request :: requests) = handleAll valid (request.handle valid db).1 requests from rfl,
        hunchanged hsent]
      exact hrest
    | some update =>
      simp only [Option.toList_some, List.foldlM_cons, List.foldlM_nil, hmerge update hsent, Option.bind_eq_bind,
        Option.pure_def, Option.bind_some]
      exact hrest

/-! ## Loading -/

/-- A node of the snapshot. -/
noncomputable def Db.graphNode (db : Db) (n : Node) : GraphNode :=
  ⟨n.id, n.clusterId, n.parentId, n.name, db.depth n.id, n.status⟩

/-- A cluster while nodes are loaded: those it has so far, and the last at depth 0. -/
noncomputable def loadedCluster (db : Db) (nodes : List Node) (c : Cluster) : PageCluster :=
  ⟨c.id, c.name, (db.nodesOf c.id).length, db.maxDepth c.id, (nodes.filter (fun n => n.clusterId = c.id)).map (·.id),
    (nodes.filter (fun n => n.clusterId = c.id ∧ db.depth n.id = 0)).getLast?.map (·.id)⟩

/-- The nodes while parents are loaded. -/
noncomputable def loadedNode (db : Db) (done : List Nat) (n : Node) : PageNode :=
  ⟨n.id, n.name, n.status, db.depth n.id, n.clusterId, if n.id ∈ done then n.parentId else none⟩

theorem loadNode_step (h : db.Linked) (nodes : List Node) (hn : n ∈ db.nodes) :
    Page.loadNode ⟨db.clusters.map (loadedCluster db nodes), nodes.map (loadedNode db [])⟩ (db.graphNode n) =
      some ⟨db.clusters.map (loadedCluster db (nodes ++ [n])), (nodes ++ [n]).map (loadedNode db [])⟩ := by
  obtain ⟨c, hc, hcluster⟩ := h.clustered n hn
  have hfind : Page.clusterById ⟨db.clusters.map (loadedCluster db nodes), nodes.map (loadedNode db [])⟩
      (db.graphNode n).clusterId = some (loadedCluster db nodes c) := by
    have hdb : db.clusters.find? (fun c => c.id = n.clusterId) = some c :=
      find?_eq_of_unique hc (by simpa using hcluster)
        (fun d hd he => h.cluster_unique hd hc ((of_decide_eq_true he).trans hcluster.symm))
    rw [Page.clusterById, List.find?_map]
    exact congrArg (Option.map (loadedCluster db nodes)) hdb
  have hclusters : (db.clusters.map (loadedCluster db nodes)).map (fun d => if d.id = c.id then
      ({ loadedCluster db nodes c with
          nodes := (loadedCluster db nodes c).nodes ++ [n.id]
          root := if db.depth n.id = 0 then some n.id else (loadedCluster db nodes c).root } : PageCluster) else d) =
      db.clusters.map (loadedCluster db (nodes ++ [n])) := by
    rw [List.map_map]
    apply List.map_congr_left
    intro d hd
    by_cases he : d.id = c.id
    · obtain rfl := h.cluster_unique hd hc he
      refine (if_pos rfl).trans ?_
      by_cases hdepth : db.depth n.id = 0
      · simp [loadedCluster, hcluster, hdepth]
      · simp [loadedCluster, hcluster, hdepth]
    · have hne : ¬ n.clusterId = d.id := fun hsame => he (hsame.symm.trans hcluster.symm)
      refine (if_neg he).trans ?_
      simp [loadedCluster, hne]
  have hnode : loadedNode db [] n = ⟨n.id, n.name, n.status, db.depth n.id, c.id, none⟩ := by
    simp [loadedNode, hcluster]
  rw [Page.loadNode, hfind, Option.bind_eq_bind, Option.bind_some, List.map_append, ← hclusters, List.map_cons,
    List.map_nil, hnode]
  rfl

theorem loadNodes (h : db.Linked) (nodes : List Node) (hnodes : ∀ n ∈ nodes, n ∈ db.nodes) :
    (nodes.map db.graphNode).foldlM Page.loadNode ⟨db.clusters.map (loadedCluster db []), []⟩ =
      some ⟨db.clusters.map (loadedCluster db nodes), nodes.map (loadedNode db [])⟩ := by
  induction nodes using List.reverseRecOn with
  | nil => rfl
  | append_singleton nodes n ih =>
    rw [List.map_append, List.foldlM_append, ih (fun m hm => hnodes m (List.mem_append_left _ hm)), Option.bind_eq_bind,
      Option.bind_some, List.map_cons, List.map_nil, List.foldlM_cons,
      loadNode_step h nodes (hnodes n (List.mem_append_right _ (List.mem_singleton_self n)))]
    rfl

theorem loadParent_step (h : db.Linked) (clusters : List PageCluster) (done : List Nat) (hn : n ∈ db.nodes) :
    Page.loadParent ⟨clusters, db.nodes.map (loadedNode db done)⟩ (db.graphNode n) =
      ⟨clusters, db.nodes.map (loadedNode db (done ++ [n.id]))⟩ := by
  have hfind (m : Node) (hm : m ∈ db.nodes) :
      Page.nodeById ⟨clusters, db.nodes.map (loadedNode db done)⟩ m.id = some (loadedNode db done m) := by
    rw [Page.nodeById, List.find?_map]
    exact congrArg (Option.map (loadedNode db done)) (h.nodeById hm)
  have hother (m : Node) (hne : m.id ≠ n.id) : loadedNode db (done ++ [n.id]) m = loadedNode db done m := by
    simp [loadedNode, hne]
  cases hparent : n.parentId with
  | none =>
    have hraw : (db.graphNode n).parent = none := hparent
    simp only [Page.loadParent, hraw]
    congr 1
    apply List.map_congr_left
    intro m hm
    by_cases he : m.id = n.id
    · rw [h.eq_of_id hm hn he]
      simp [loadedNode, hparent]
    · exact (hother m he).symm
  | some id =>
    obtain ⟨p, hp, rfl⟩ := h.parent_exists hn id hparent
    have hraw : (db.graphNode n).parent = some p.id := hparent
    simp only [Page.loadParent, hraw, show (db.graphNode n).id = n.id from rfl, hfind n hn, hfind p hp, Option.map_some,
      Page.setNode, List.map_map]
    congr 1
    apply List.map_congr_left
    intro m hm
    by_cases he : m.id = n.id
    · rw [h.eq_of_id hm hn he]
      refine (if_pos rfl).trans ?_
      simp [loadedNode, hparent]
    · exact (if_neg he).trans (hother m he).symm

theorem loadParents (h : db.Linked) (clusters : List PageCluster) (nodes : List Node) (hnodes : ∀ n ∈ nodes, n ∈ db.nodes) :
    (nodes.map db.graphNode).foldl Page.loadParent ⟨clusters, db.nodes.map (loadedNode db [])⟩ =
      ⟨clusters, db.nodes.map (loadedNode db (nodes.map (·.id)))⟩ := by
  induction nodes using List.reverseRecOn with
  | nil => rfl
  | append_singleton nodes n ih =>
    rw [List.map_append, List.foldl_append, ih (fun m hm => hnodes m (List.mem_append_left _ hm)), List.map_cons,
      List.map_nil, List.foldl_cons, List.foldl_nil,
      loadParent_step h clusters _ (hnodes n (List.mem_append_right _ (List.mem_singleton_self n))), List.map_append,
      List.map_cons, List.map_nil]

theorem depth_zero_iff (h : db.Linked) (hn : n ∈ db.nodes) : db.depth n.id = 0 ↔ n.name = ROOT_NODE := by
  rw [(depth_spec h hn).zero_iff, parentIdOf_mem h hn, parentId_none_iff h hn]

/-- The only node of a cluster at depth 0 is its root. -/
theorem loadedCluster_all (h : db.Linked) (hr : db.Rooted) (hc : c ∈ db.clusters) :
    loadedCluster db db.nodes c = ⟨c.id, c.name, (db.nodesOf c.id).length, db.maxDepth c.id,
      (db.nodesOf c.id).map (·.id), (db.node? c.id ROOT_NODE).map (·.id)⟩ := by
  obtain ⟨r, hmem, hcluster, hname⟩ := hr.root c hc
  have hnode : db.node? c.id ROOT_NODE = some r := by
    rw [← hcluster, ← hname]
    exact Db.node?_of_mem h hmem
  have hlast : (db.nodes.filter (fun n => n.clusterId = c.id ∧ db.depth n.id = 0)).getLast? = some r := by
    have hin : r ∈ db.nodes.filter (fun n => n.clusterId = c.id ∧ db.depth n.id = 0) :=
      List.mem_filter.mpr ⟨hmem, decide_eq_true ⟨hcluster, (depth_zero_iff h hmem).mpr hname⟩⟩
    rw [List.getLast?_eq_some_getLast (List.ne_nil_of_mem hin)]
    obtain ⟨hlast, he⟩ := List.mem_filter.mp (List.getLast_mem (List.ne_nil_of_mem hin))
    obtain ⟨hsame, hzero⟩ := of_decide_eq_true he
    rw [h.eq_of_name hlast hmem (hsame.trans hcluster.symm) (((depth_zero_iff h hlast).mp hzero).trans hname.symm)]
  rw [loadedCluster, hlast, hnode, Db.nodesOf]

/-- A browser that loads the snapshot shows the trees with their measures. -/
theorem load_graph (h : db.Linked) (hr : db.Rooted) : Page.load db.graph = some db.page := by
  have hnodes : db.graph.nodes = db.nodes.map db.graphNode := rfl
  have hstart : db.graph.clusters.map (fun c => (⟨c.id, c.name, c.count, c.maxDepth, [], none⟩ : PageCluster)) =
      db.clusters.map (loadedCluster db []) := by
    rw [Db.graph, List.map_map]
    rfl
  have hall : db.nodes.map (loadedNode db (db.nodes.map (·.id))) = db.page.nodes := by
    apply List.map_congr_left
    intro n hn
    rw [loadedNode, if_pos (List.mem_map_of_mem hn)]
  have hclusters : (db.clusters.map (loadedCluster db db.nodes)).map (fun c => { c with root := c.root <|> c.nodes.head? }) =
      db.page.clusters := by
    rw [List.map_map]
    apply List.map_congr_left
    intro c hc
    obtain ⟨r, hmem, hcluster, hname⟩ := hr.root c hc
    have hnode : db.node? c.id ROOT_NODE = some r := by
      rw [← hcluster, ← hname]
      exact Db.node?_of_mem h hmem
    rw [Function.comp_apply, loadedCluster_all h hr hc, hnode]
    rfl
  rw [Page.load, hstart, hnodes, loadNodes h db.nodes (fun _ hn => hn), Option.bind_eq_bind, Option.bind_some,
    loadParents h _ db.nodes (fun _ hn => hn), hall]
  simp only [hclusters, Option.pure_def]

/-! ## Every run -/

/-- A browser that loads the snapshot after some events and applies the updates of
further ones is where a browser is that loads the snapshot afterwards, and an event
without an update changed nothing. -/
theorem updates_equal_reload (valid : List Char → Bool) (before after : List Request) :
    ∃ g g' page page', getGraph (handleAll valid {} before) = some g ∧ Page.load g = some page ∧
      getGraph (handleAll valid {} (before ++ after)) = some g' ∧ Page.load g' = some page' ∧
      (broadcasts valid (handleAll valid {} before) after).foldlM Page.merge page = some page' ∧
      ∀ request : Request, (request.handle valid (handleAll valid {} before)).2 = none →
        (request.handle valid (handleAll valid {} before)).1 = handleAll valid {} before := by
  obtain ⟨h, hr⟩ := handleAll_linked empty_linked empty_rooted valid before
  obtain ⟨h', hr'⟩ := handleAll_linked empty_linked empty_rooted valid (before ++ after)
  refine ⟨_, _, _, _, getGraph_eq h hr, load_graph h hr, getGraph_eq h' hr', load_graph h' hr', ?_, ?_⟩
  · rw [merge_broadcasts h hr, handleAll, handleAll, handleAll, List.foldl_append]
  · intro request
    exact (handle_updates h hr valid request).2

end

end Linksurf.Visualization
