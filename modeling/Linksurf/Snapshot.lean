import Linksurf.Trees
import Mathlib.Data.List.MinMax

/-!
# What the snapshot measures

`get_graph` reads the rows in the order of their ids, walks the trees from the
roots and counts what it finds for each cluster. On every state that events lead
to, the walk visits each node once, at the length of its chain of parents.
-/
namespace Linksurf.Visualization

open Dicts (Dict)

namespace Db

/-- The parent of an id. -/
def parentIdOf (db : Db) (id : Nat) : Option Nat := (db.nodeById id).bind (·.parentId)

/-- The length of the chain of parents above an id. -/
noncomputable def depth (db : Db) (id : Nat) : Nat := Forest.depth db.parentIdOf id

def nodesOf (db : Db) (clusterId : Nat) : List Node := db.nodes.filter (fun n => n.clusterId = clusterId)

noncomputable def maxDepth (db : Db) (clusterId : Nat) : Nat :=
  ((db.nodesOf clusterId).map (fun n => db.depth n.id)).foldl max 0

/-- The trees with their measures. -/
noncomputable def graph (db : Db) : Graph where
  clusters := db.clusters.map (fun c => ⟨c.id, c.name, (db.nodesOf c.id).length, db.maxDepth c.id⟩)
  nodes := db.nodes.map (fun n => ⟨n.id, n.clusterId, n.parentId, n.name, db.depth n.id, n.status⟩)

end Db

section

variable {db : Db} {n m : Node} {c : Cluster} {id : Nat}

/-! ## Chains of parents -/

theorem parentIdOf_mem (h : db.Linked) (hn : n ∈ db.nodes) : db.parentIdOf n.id = n.parentId := by
  rw [Db.parentIdOf, h.nodeById hn, Option.bind_some]

/-- A parent is a node of the same cluster, the root or one of a shorter name. -/
theorem Db.Linked.parent_mem (h : db.Linked) (hn : n ∈ db.nodes) (hparent : n.parentId = some id) :
    ∃ p ∈ db.nodes, p.id = id ∧ p.clusterId = n.clusterId ∧ n.name ≠ ROOT_NODE ∧
      (p.name = ROOT_NODE ∨ p.name.length < n.name.length) := by
  have hname : n.name ≠ ROOT_NODE := by
    intro hname
    rw [h.root n hn hname] at hparent
    cases hparent
  obtain ⟨id', hsame, p, hp, hid, hcluster, hfits⟩ := h.parent n hn hname
  obtain rfl := Option.some.inj (hparent.symm.trans hsame)
  exact ⟨p, hp, hid, hcluster, hname, hfits⟩

theorem parentId_none_iff (h : db.Linked) (hn : n ∈ db.nodes) : n.parentId = none ↔ n.name = ROOT_NODE := by
  constructor
  · intro hnone
    by_contra hname
    obtain ⟨id, hparent, -⟩ := h.parent n hn hname
    rw [hnone] at hparent
    cases hparent
  · exact h.root n hn

/-- The root comes first, then names in the order of their length. -/
def rank (db : Db) (id : Nat) : Nat :=
  match db.nodeById id with
  | none => 0
  | some n => if n.name = ROOT_NODE then 0 else n.name.length + 1

theorem exists_depth (h : db.Linked) (hn : n ∈ db.nodes) : ∃ d, Forest.Depth db.parentIdOf n.id d := by
  apply Forest.exists_depth (rank db) (S := fun id => ∃ n ∈ db.nodes, n.id = id)
  · rintro x y ⟨n, hn, rfl⟩ hparent
    rw [parentIdOf_mem h hn] at hparent
    obtain ⟨p, hp, rfl, -, hname, hfits⟩ := h.parent_mem hn hparent
    refine ⟨⟨p, hp, rfl⟩, ?_⟩
    simp only [rank, h.nodeById hp, h.nodeById hn, if_neg hname]
    split
    · omega
    · obtain hroot | hlt := hfits
      · contradiction
      · omega
  · exact ⟨n, hn, rfl⟩

theorem depth_spec (h : db.Linked) (hn : n ∈ db.nodes) : Forest.Depth db.parentIdOf n.id (db.depth n.id) := by
  obtain ⟨d, hd⟩ := exists_depth h hn
  rw [Db.depth, hd.depth_eq]
  exact hd

/-- Following parents stays in the cluster and ends at its root. -/
theorem leads_root (h : db.Linked) (hn : n ∈ db.nodes) {r : Node} (hr : r ∈ db.nodes)
    (hcluster : r.clusterId = n.clusterId) (hname : r.name = ROOT_NODE) : Forest.Leads db.parentIdOf n.id r.id := by
  obtain ⟨d, hd⟩ := exists_depth h hn
  generalize hid : n.id = id at hd
  induction hd generalizing n with
  | root hnone =>
    rw [← hid, parentIdOf_mem h hn, parentId_none_iff h hn] at hnone
    have hsame := h.eq_of_name hr hn hcluster (hname.trans hnone.symm)
    rw [← hid, hsame]
    exact .refl
  | child hparent _ ih =>
    rw [← hid, parentIdOf_mem h hn] at hparent
    obtain ⟨p, hp, hpid, hsame, -⟩ := h.parent_mem hn hparent
    rw [← hid]
    apply Relation.ReflTransGen.head
    · rw [parentIdOf_mem h hn]
      exact hparent
    · exact ih hp (hcluster.trans hsame.symm) hpid

/-! ## The walk -/

/-- The children that the rows list are those of the chains, within ids that are
closed under children. -/
theorem children_spec (h : db.Linked) {S : List Nat} (hS : ∀ id ∈ S, ∃ n ∈ db.nodes, n.id = id)
    (hclosed : ∀ n ∈ db.nodes, ∀ id ∈ S, n.parentId = some id → n.id ∈ S) :
    Forest.Children db.parentIdOf S (childrenOf db.nodes) where
  nodup _ _ := h.nodes_nodup.sublist (List.filter_sublist.map _)
  mem x hx c := by
    simp only [childrenOf, List.mem_map, List.mem_filter, decide_eq_true_eq]
    constructor
    · rintro ⟨n, ⟨hn, hparent⟩, rfl⟩
      exact ⟨hclosed n hn x hx hparent, (parentIdOf_mem h hn).trans hparent⟩
    · rintro ⟨hc, hparent⟩
      obtain ⟨n, hn, rfl⟩ := hS c hc
      exact ⟨n, ⟨hn, (parentIdOf_mem h hn).symm.trans hparent⟩, rfl⟩

/-- The breadth-first walk visits every node once, at its depth. -/
theorem breadthFirst_visits (h : db.Linked) : ∃ visits, breadthFirst db.nodes db.nodes.length = some visits ∧
    (visits.map Prod.fst).Perm (db.nodes.map (·.id)) ∧ ∀ v ∈ visits, v.2 = db.depth v.1 := by
  have hvisits : ∃ visits, breadthFirst db.nodes db.nodes.length = some visits ∧
      (visits.map Prod.fst).Perm (db.nodes.map (·.id)) ∧ ∀ v ∈ visits, Forest.Depth db.parentIdOf v.1 v.2 := by
    apply Forest.walk_visits
    · exact h.nodes_nodup.sublist (List.filter_sublist.map _)
    · intro x
      simp only [rootsOf, List.mem_map, List.mem_filter, decide_eq_true_eq]
      constructor
      · rintro ⟨n, ⟨hn, hnone⟩, rfl⟩
        exact ⟨⟨n, hn, rfl⟩, (parentIdOf_mem h hn).trans hnone⟩
      · rintro ⟨⟨n, hn, rfl⟩, hnone⟩
        exact ⟨n, ⟨hn, (parentIdOf_mem h hn).symm.trans hnone⟩, rfl⟩
    · exact children_spec h (fun id hid => List.mem_map.mp hid) (fun n hn _ _ _ => List.mem_map_of_mem hn)
    · intro rest new
      exact .refl _
    · exact h.nodes_nodup
    · intro x hx y hparent
      obtain ⟨n, hn, rfl⟩ := List.mem_map.mp hx
      rw [parentIdOf_mem h hn] at hparent
      obtain ⟨p, hp, rfl, -⟩ := h.parent_mem hn hparent
      exact List.mem_map_of_mem hp
    · intro x hx
      obtain ⟨n, hn, rfl⟩ := List.mem_map.mp hx
      exact exists_depth h hn
    · rw [List.length_map]
  obtain ⟨visits, hwalk, hperm, hdepth⟩ := hvisits
  exact ⟨visits, hwalk, hperm, fun v hv => (hdepth v hv).depth_eq.symm⟩

/-- What the walk found, as the dictionary holds it. -/
theorem depths_get? {visits : List (Nat × Nat)} {ids : List Nat} (hperm : (visits.map Prod.fst).Perm ids) (hids : ids.Nodup)
    (hdepth : ∀ v ∈ visits, v.2 = db.depth v.1) (hid : id ∈ ids) :
    ((visits.foldl (fun depths v => depths.set v.1 v.2) (Dict.empty : Dict Nat Nat)).get? id).getD 0 = db.depth id := by
  obtain ⟨v, hv, rfl⟩ := List.mem_map.mp (hperm.mem_iff.mpr hid)
  have hentries := Dict.entries_foldl_set visits (Dict.empty : Dict Nat Nat) (hperm.nodup_iff.mpr hids)
  have hget : (visits.foldl (fun depths v => depths.set v.1 v.2) (Dict.empty : Dict Nat Nat)).get? v.1 = some v.2 := by
    rw [Dict.get?_eq_some_iff, hentries]
    exact List.mem_append_right _ hv
  rw [hget, Option.getD_some, hdepth v hv]

/-! ## Rows -/

theorem rows_spec (h : db.Linked) :
    db.rows.map Prod.fst = db.nodes ∧ ∀ row ∈ db.rows, row.2 ∈ db.clusters ∧ row.2.id = row.1.clusterId := by
  have hrow : ∀ n ∈ db.nodes, ∃ c ∈ db.clusters, c.id = n.clusterId ∧
      (db.clusters.find? (fun c => c.id = n.clusterId)).map (fun c => (n, c)) = some (n, c) := by
    intro n hn
    obtain ⟨c, hc, hcluster⟩ := h.clustered n hn
    have hfind : db.clusters.find? (fun c => c.id = n.clusterId) = some c :=
      find?_eq_of_unique hc (by simpa using hcluster)
        (fun d hd he => h.cluster_unique hd hc ((by simpa using he : d.id = n.clusterId).trans hcluster.symm))
    exact ⟨c, hc, hcluster, by rw [hfind, Option.map_some]⟩
  have hfst : (db.nodes.filterMap (fun n => (db.clusters.find? (fun c => c.id = n.clusterId)).map (fun c => (n, c)))).map
      Prod.fst = db.nodes := by
    rw [List.map_filterMap]
    calc db.nodes.filterMap _ = db.nodes.filterMap some := by
          apply List.filterMap_congr
          intro n hn
          obtain ⟨c, -, -, hfind⟩ := hrow n hn
          rw [hfind, Option.map_some]
      _ = db.nodes := List.filterMap_some
  -- ids count up, so the rows are in order
  have hsorted : (db.nodes.filterMap
      (fun n => (db.clusters.find? (fun c => c.id = n.clusterId)).map (fun c => (n, c)))).Pairwise
      (fun a b => a.1.id ≤ b.1.id) := by
    have hids : (db.nodes.map (·.id)).Pairwise (· ≤ ·) := by
      rw [h.nodeIds]
      exact List.pairwise_le_range'
    rw [List.pairwise_map] at hids
    rw [← hfst, List.pairwise_map] at hids
    exact hids
  have hrows : db.rows = db.nodes.filterMap
      (fun n => (db.clusters.find? (fun c => c.id = n.clusterId)).map (fun c => (n, c))) := hsorted.insertionSort_eq
  rw [hrows]
  refine ⟨hfst, ?_⟩
  intro row hmem
  obtain ⟨n, hn, hfind⟩ := List.mem_filterMap.mp hmem
  obtain ⟨c, hc, hcluster, hsome⟩ := hrow n hn
  obtain rfl := Option.some.inj (hsome.symm.trans hfind)
  exact ⟨hc, hcluster⟩

/-! ## Counts -/

/-- The rows of a cluster. -/
def rowsOf (rows : List (Node × Cluster)) (clusterId : Nat) : List (Node × Cluster) :=
  rows.filter (fun row => row.2.id = clusterId)

/-- What the rows say about a cluster after counting. -/
def counted (depths : Dict Nat Nat) (rows : List (Node × Cluster)) (c : Cluster) : GraphCluster :=
  ⟨c.id, c.name, (rowsOf rows c.id).length,
    ((rowsOf rows c.id).map (fun row => (depths.get? row.1.id).getD 0)).foldl max 0⟩

theorem countRows_keys (depths : Dict Nat Nat) (rows : List (Node × Cluster)) :
    (rows.foldl (countRow depths) .empty).keys = (rows.map (fun row => row.2.id)).eraseDups := by
  apply Dict.keys_foldl
  intro counts row
  rw [countRow, Dict.keys_set]

theorem countRows_get? (depths : Dict Nat Nat) {rows : List (Node × Cluster)}
    (hsame : ∀ row ∈ rows, row.2.id = c.id → row.2 = c) :
    ((rows.foldl (countRow depths) .empty).get? c.id).getD ⟨c.id, c.name, 0, 0⟩ = counted depths rows c := by
  induction rows using List.reverseRecOn with
  | nil => rfl
  | append_singleton rows row ih =>
    have hrest := ih (fun r hr => hsame r (List.mem_append_left _ hr))
    rw [List.foldl_append, List.foldl_cons, List.foldl_nil, countRow, Dict.get?_set]
    by_cases hid : row.2.id = c.id
    · obtain rfl := hsame row (List.mem_append_right _ (List.mem_singleton_self row)) hid
      rw [if_pos rfl, Option.getD_some, hrest]
      simp [counted, rowsOf, List.filter_append]
    · rw [if_neg (Ne.symm hid), hrest]
      simp [counted, rowsOf, List.filter_append, hid]

theorem rowsOf_rows (h : db.Linked) (clusterId : Nat) : (rowsOf db.rows clusterId).map Prod.fst = db.nodesOf clusterId := by
  obtain ⟨hfst, hrow⟩ := rows_spec h
  have hfilter : rowsOf db.rows clusterId = db.rows.filter (fun row => row.1.clusterId = clusterId) := by
    apply List.filter_congr
    intro row hmem
    rw [(hrow row hmem).2]
  rw [hfilter, Db.nodesOf, ← hfst, List.filter_map]
  rfl

theorem counted_rows (h : db.Linked) {depths : Dict Nat Nat}
    (hdepths : ∀ n ∈ db.nodes, (depths.get? n.id).getD 0 = db.depth n.id) (c : Cluster) :
    counted depths db.rows c = ⟨c.id, c.name, (db.nodesOf c.id).length, db.maxDepth c.id⟩ := by
  have hrows := rowsOf_rows h c.id
  have hcount : (rowsOf db.rows c.id).length = (db.nodesOf c.id).length := by rw [← hrows, List.length_map]
  have hmax : (rowsOf db.rows c.id).map (fun row => (depths.get? row.1.id).getD 0) =
      (db.nodesOf c.id).map (fun n => db.depth n.id) := by
    rw [← hrows, List.map_map]
    apply List.map_congr_left
    intro row hrow
    have hmem : row.1 ∈ db.nodes := (List.mem_filter.mp (hrows ▸ List.mem_map_of_mem hrow)).1
    exact hdepths row.1 hmem
  rw [counted, hcount, hmax, Db.maxDepth]

/-- The snapshot is the trees with their measures. -/
theorem getGraph_eq (h : db.Linked) (hr : db.Rooted) : getGraph db = some db.graph := by
  obtain ⟨hfst, hrow⟩ := rows_spec h
  have hlength : db.rows.length = db.nodes.length := by rw [← hfst, List.length_map]
  obtain ⟨visits, hwalk, hperm, hdepth⟩ := breadthFirst_visits h
  generalize hd : visits.foldl (fun depths v => depths.set v.1 v.2) (Dict.empty : Dict Nat Nat) = depths
  have hdepths : ∀ n ∈ db.nodes, (depths.get? n.id).getD 0 = db.depth n.id := by
    intro n hn
    rw [← hd]
    exact depths_get? hperm h.nodes_nodup hdepth (List.mem_map_of_mem hn)
  have hclusters : (db.rows.foldl (countRow depths) .empty).entries.map Prod.snd = db.graph.clusters := by
    apply Dict.values_of_keys (f := (·.id))
    · have hids : db.rows.map (fun row => row.2.id) = db.nodes.map (·.clusterId) := by
        rw [← hfst, List.map_map]
        exact List.map_congr_left (fun row hmem => (hrow row hmem).2)
      rw [countRows_keys, hids, hr.order]
    · intro c hc v hv
      have hcount := countRows_get? depths (fun row hmem he => h.cluster_unique (hrow row hmem).1 hc he)
      rwa [hv, Option.getD_some, counted_rows h hdepths] at hcount
  have hnodes : db.rows.map (fun row => (⟨row.1.id, row.2.id, row.1.parentId, row.1.name,
      (depths.get? row.1.id).getD 0, row.1.status⟩ : GraphNode)) = db.graph.nodes := by
    rw [Db.graph, ← hfst, List.map_map]
    apply List.map_congr_left
    intro row hmem
    rw [(hrow row hmem).2, hdepths row.1 (hfst ▸ List.mem_map_of_mem hmem), Function.comp_apply]
  simp only [getGraph, hfst, hlength, hwalk, Option.bind_eq_bind, Option.bind_some, hd, hclusters, hnodes]
  rfl

/-! ## Every run -/

/-- Every cluster is one tree. -/
structure Db.Trees (db : Db) : Prop where
  ids : (db.nodes.map (·.id)).Nodup
  root : ∀ c ∈ db.clusters, ∃ r ∈ db.nodes, r.clusterId = c.id ∧ r.name = ROOT_NODE ∧
    ∀ n ∈ db.nodes, n.clusterId = c.id → (n.parentId = none ↔ n = r)
  names : (db.nodes.map (fun n => (n.clusterId, n.name))).Nodup
  clustered : ∀ n ∈ db.nodes, ∃ c ∈ db.clusters, c.id = n.clusterId
  parent : ∀ n ∈ db.nodes, ∀ id, n.parentId = some id → ∃ p ∈ db.nodes, p.id = id ∧ p.clusterId = n.clusterId
  leads : ∀ n ∈ db.nodes, ∀ r ∈ db.nodes, r.clusterId = n.clusterId → r.parentId = none →
    Forest.Leads db.parentIdOf n.id r.id

/-- The snapshot has every cluster and node, with their measures. -/
structure Graph.Measures (g : Graph) (db : Db) : Prop where
  nodes : g.nodes.map (fun n => (⟨n.id, n.name, n.status, n.clusterId, n.parent⟩ : Node)) = db.nodes
  clusters : g.clusters.map (fun c => (⟨c.id, c.name⟩ : Cluster)) = db.clusters
  depth : ∀ n ∈ g.nodes, Forest.Depth db.parentIdOf n.id n.depth
  count : ∀ c ∈ g.clusters, c.count = (db.nodes.filter (fun n => n.clusterId = c.id)).length
  deepest : ∀ c ∈ g.clusters, ∃ n ∈ g.nodes, n.clusterId = c.id ∧ n.depth = c.maxDepth
  maxDepth : ∀ c ∈ g.clusters, ∀ n ∈ g.nodes, n.clusterId = c.id → n.depth ≤ c.maxDepth

theorem linked_trees (h : db.Linked) (hr : db.Rooted) : db.Trees where
  ids := h.nodes_nodup
  root c hc := by
    obtain ⟨r, hmem, hcluster, hname⟩ := hr.root c hc
    refine ⟨r, hmem, hcluster, hname, ?_⟩
    intro n hn hsame
    rw [parentId_none_iff h hn]
    constructor
    · intro hroot
      exact h.eq_of_name hn hmem (hsame.trans hcluster.symm) (hroot.trans hname.symm)
    · intro he
      rw [he, hname]
  names := h.names
  clustered := h.clustered
  parent n hn id hparent := by
    obtain ⟨p, hp, hid, hcluster, -⟩ := h.parent_mem hn hparent
    exact ⟨p, hp, hid, hcluster⟩
  leads n hn r hr hcluster hnone := leads_root h hn hr hcluster ((parentId_none_iff h hr).mp hnone)

theorem foldl_max_eq (depths : List Nat) : depths.foldl max 0 = depths.foldr max ⊥ := List.foldl_eq_foldr

theorem foldl_max_mem {depths : List Nat} (hne : depths ≠ []) : depths.foldl max 0 ∈ depths := by
  rw [foldl_max_eq]
  exact List.maximum_mem (List.foldr_max_of_ne_nil hne).symm

theorem graph_measures (h : db.Linked) (hr : db.Rooted) : db.graph.Measures db where
  nodes := by
    rw [Db.graph, List.map_map]
    exact List.map_id'' (fun _ => rfl) _
  clusters := by
    rw [Db.graph, List.map_map]
    exact List.map_id'' (fun _ => rfl) _
  depth g hg := by
    obtain ⟨n, hn, rfl⟩ := List.mem_map.mp hg
    exact depth_spec h hn
  count g hg := by
    obtain ⟨c, -, rfl⟩ := List.mem_map.mp hg
    rfl
  deepest g hg := by
    obtain ⟨c, hc, rfl⟩ := List.mem_map.mp hg
    obtain ⟨r, hr, hcluster, -⟩ := hr.root c hc
    have hmem : r ∈ db.nodesOf c.id := List.mem_filter.mpr ⟨hr, by simpa using hcluster⟩
    have hne : (db.nodesOf c.id).map (fun n => db.depth n.id) ≠ [] := List.ne_nil_of_mem (List.mem_map_of_mem hmem)
    obtain ⟨n, hn, hdepth⟩ := List.mem_map.mp (foldl_max_mem hne)
    obtain ⟨hn, hsame⟩ := List.mem_filter.mp hn
    exact ⟨_, List.mem_map_of_mem hn, of_decide_eq_true hsame, hdepth⟩
  maxDepth g hg := by
    obtain ⟨c, -, rfl⟩ := List.mem_map.mp hg
    intro m hm hsame
    obtain ⟨n, hn, rfl⟩ := List.mem_map.mp hm
    have hmem : n ∈ db.nodesOf c.id := List.mem_filter.mpr ⟨hn, by simpa using hsame⟩
    rw [Db.maxDepth, foldl_max_eq]
    exact List.le_max_of_le (List.mem_map_of_mem hmem) (Nat.le_refl _)

/-- After any events every cluster is one tree, the breadth-first walk visits every
node once, and the snapshot has the measures of the trees. -/
theorem handleAll_trees (valid : List Char → Bool) (requests : List Request) :
    (handleAll valid {} requests).Trees ∧
      (∃ visits, breadthFirst ((handleAll valid {} requests).rows.map Prod.fst) (handleAll valid {} requests).rows.length =
          some visits ∧ (visits.map Prod.fst).Perm ((handleAll valid {} requests).nodes.map (·.id))) ∧
      ∃ g, getGraph (handleAll valid {} requests) = some g ∧ g.Measures (handleAll valid {} requests) := by
  obtain ⟨h, hr⟩ := handleAll_linked empty_linked empty_rooted valid requests
  refine ⟨linked_trees h hr, ?_, _, getGraph_eq h hr, graph_measures h hr⟩
  obtain ⟨hfst, -⟩ := rows_spec h
  obtain ⟨visits, hwalk, hperm, -⟩ := breadthFirst_visits h
  have hlength : (handleAll valid {} requests).rows.length = (handleAll valid {} requests).nodes.length := by
    rw [← List.length_map Prod.fst, hfst]
  exact ⟨visits, by rw [hfst, hlength, hwalk], hperm⟩

end

end Linksurf.Visualization
