import Linksurf.CatchingUp

/-!
# Pages that missed updates

A page that lost updates, or merged only part of one, shows old rows beside new
ones. Its nodes still have the names and clusters of the tables, and every parent
is the root of the cluster or has a shorter name, so the page shows trees: no
traversal goes on forever, and no snapshot or update ever makes it stop.
-/
namespace Linksurf.Visualization

open Execution

/-- A row that the tables had at some time. -/
structure Db.Tells (db : Db) (n : Node) : Prop where
  named : ∃ m ∈ db.nodes, m.id = n.id ∧ m.clusterId = n.clusterId ∧ m.name = n.name
  root : n.name = ROOT_NODE → n.parentId = none
  parent : n.name ≠ ROOT_NODE → ∃ id, n.parentId = some id ∧ db.Fits n.clusterId n.name id

/-- A page of rows the tables had, each with its parent. -/
structure Page.Drawn (db : Db) (page : Page) : Prop where
  clusterIds : (page.clusters.map (·.id)).Nodup
  nodeIds : (page.nodes.map (·.id)).Nodup
  rows : ∀ n ∈ page.nodes, db.Tells n.row
  parents : ∀ n ∈ page.nodes, ∀ id, n.parent = some id → ∃ p ∈ page.nodes, p.id = id
  roots : ∀ c ∈ page.clusters, ∀ id, c.root = some id → ∃ n ∈ page.nodes, n.id = id ∧ n.cluster = c.id ∧ n.name = ROOT_NODE

/-- The parent of an id on the page. -/
def Page.parentIdOf (page : Page) (id : Nat) : Option Nat := (page.nodeById id).bind (·.parent)

section

variable {db db' : Db} {page page' : Page} {n : Node} {pn : PageNode} {pc : PageCluster}

theorem Db.Tells.mono (h : db.Tells n) (hknows : db'.Knows db) : db'.Tells n where
  named := by
    obtain ⟨m, hm, hid, hcluster, hname⟩ := h.named
    obtain ⟨p, hp, hpid, hpcluster, hpname⟩ := hknows.nodes m hm
    exact ⟨p, hp, hpid.trans hid, hpcluster.trans hcluster, hpname.trans hname⟩
  root := h.root
  parent hname := by
    obtain ⟨id, hid, hfits⟩ := h.parent hname
    exact ⟨id, hid, hfits.mono hknows.nodes⟩

theorem Db.Linked.tells (h : db.Linked) (hn : n ∈ db.nodes) : db.Tells n :=
  ⟨⟨n, hn, rfl, rfl, rfl⟩, h.root n hn, h.parent n hn⟩

theorem Page.Drawn.mono (h : page.Drawn db) (hknows : db'.Knows db) : page.Drawn db' :=
  ⟨h.clusterIds, h.nodeIds, fun n hn => (h.rows n hn).mono hknows, h.parents, h.roots⟩

/-! ## Traversals -/

namespace Page.Drawn

theorem nodeById (h : page.Drawn db) (hn : pn ∈ page.nodes) : page.nodeById pn.id = some pn :=
  find?_eq_of_unique hn (by simp) (fun m hm he => List.inj_on_of_nodup_map h.nodeIds hm hn (of_decide_eq_true he))

theorem parentIdOf (h : page.Drawn db) (hn : pn ∈ page.nodes) : page.parentIdOf pn.id = pn.parent := by
  rw [Page.parentIdOf, h.nodeById hn, Option.bind_some]

/-- A parent is in the cluster, and is the root or has a shorter name. -/
theorem parent_mem (h : page.Drawn db) (hdb : db.Linked) (hn : pn ∈ page.nodes) {id : Nat} (hparent : pn.parent = some id) :
    ∃ p ∈ page.nodes, p.id = id ∧ p.cluster = pn.cluster ∧ pn.name ≠ ROOT_NODE ∧
      (p.name = ROOT_NODE ∨ p.name.length < pn.name.length) := by
  obtain ⟨p, hp, rfl⟩ := h.parents pn hn id hparent
  have hname : pn.name ≠ ROOT_NODE := by
    intro hname
    have hnone : pn.parent = none := (h.rows pn hn).root hname
    rw [hnone] at hparent
    cases hparent
  obtain ⟨id, hid, q, hq, hqid, hcluster, hshorter⟩ := (h.rows pn hn).parent hname
  obtain rfl : p.id = id := Option.some.inj (hparent.symm.trans hid)
  obtain ⟨m, hm, hmid, hmcluster, hmname⟩ := (h.rows p hp).named
  obtain rfl := hdb.eq_of_id hm hq (hmid.trans hqid.symm)
  have hsame : p.cluster = pn.cluster := hmcluster.symm.trans hcluster
  have hpname : m.name = p.name := hmname
  exact ⟨p, hp, rfl, hsame, hname, hpname ▸ hshorter⟩

/-- Every chain of parents ends. -/
theorem exists_depth (h : page.Drawn db) (hdb : db.Linked) (hn : pn ∈ page.nodes) :
    ∃ d, Forest.Depth page.parentIdOf pn.id d := by
  apply Forest.exists_depth (fun id => (page.nodeById id).elim 0
    (fun n => if n.name = ROOT_NODE then 0 else n.name.length + 1)) (S := fun id => ∃ n ∈ page.nodes, n.id = id)
  · rintro x y ⟨n, hn, rfl⟩ hparent
    rw [h.parentIdOf hn] at hparent
    obtain ⟨p, hp, rfl, -, hname, hfits⟩ := h.parent_mem hdb hn hparent
    refine ⟨⟨p, hp, rfl⟩, ?_⟩
    simp only [h.nodeById hp, h.nodeById hn, Option.elim_some, if_neg hname]
    split
    · omega
    · obtain hroot | hlt := hfits
      · contradiction
      · omega
  · exact ⟨pn, hn, rfl⟩

/-- A cluster has one node without a parent. -/
theorem root_unique (h : page.Drawn db) (hdb : db.Linked) {pm : PageNode} (hn : pn ∈ page.nodes) (hm : pm ∈ page.nodes)
    (hcluster : pn.cluster = pm.cluster) (hroot : pm.name = ROOT_NODE) (hnone : pn.parent = none) : pn.id = pm.id := by
  have hname : pn.name = ROOT_NODE := by
    by_contra hname
    obtain ⟨id, hid, -⟩ := (h.rows pn hn).parent hname
    have hparent : pn.parent = some id := hid
    rw [hnone] at hparent
    cases hparent
  obtain ⟨a, ha, haid, hacluster, haname⟩ := (h.rows pn hn).named
  obtain ⟨b, hb, hbid, hbcluster, hbname⟩ := (h.rows pm hm).named
  have hsame : a = b := by
    apply hdb.eq_of_name ha hb
    · exact hacluster.trans (hcluster.trans hbcluster.symm)
    · exact haname.trans ((hname.trans hroot.symm).trans hbname.symm)
  exact haid.symm.trans ((congrArg Node.id hsame).trans hbid)

/-- The traversal of a cluster ends. -/
theorem descend (h : page.Drawn db) (hdb : db.Linked) (hpc : pc ∈ page.clusters) : ∃ visits, page.descend pc = some visits := by
  cases hroot : pc.root with
  | none =>
    rw [Page.descend, hroot]
    exact ⟨[], by simp [Forest.walk]⟩
  | some r =>
    obtain ⟨root, hmem, rfl, hcluster, hname⟩ := h.roots pc hpc r hroot
    have hS : ∀ id ∈ (page.nodes.filter (fun n => n.cluster = pc.id)).map (·.id), ∃ n ∈ page.nodes, n.id = id ∧ n.cluster = pc.id := by
      intro id hid
      obtain ⟨n, hn, rfl⟩ := List.mem_map.mp hid
      obtain ⟨hn, he⟩ := List.mem_filter.mp hn
      exact ⟨n, hn, rfl, of_decide_eq_true he⟩
    have hin : ∀ n ∈ page.nodes, n.cluster = pc.id → n.id ∈ (page.nodes.filter (fun n => n.cluster = pc.id)).map (·.id) :=
      fun n hn he => List.mem_map_of_mem (List.mem_filter.mpr ⟨hn, decide_eq_true he⟩)
    rw [Page.descend, hroot]
    have hvisits : ∃ visits, Forest.walk page.children (fun rest new => new.reverse ++ rest) page.nodes.length
        ([root.id].map (fun root => (root, 0))) = some visits ∧
        (visits.map Prod.fst).Perm ((page.nodes.filter (fun n => n.cluster = pc.id)).map (·.id)) ∧
        ∀ v ∈ visits, Forest.Depth page.parentIdOf v.1 v.2 := by
      apply Forest.walk_visits
      · exact List.nodup_singleton _
      · intro x
        rw [List.mem_singleton]
        constructor
        · rintro rfl
          exact ⟨hin root hmem hcluster, (h.parentIdOf hmem).trans ((h.rows root hmem).root hname)⟩
        · rintro ⟨hx, hnone⟩
          obtain ⟨n, hn, rfl, hsame⟩ := hS x hx
          rw [h.parentIdOf hn] at hnone
          exact h.root_unique hdb hn hmem (hsame.trans hcluster.symm) hname hnone
      · constructor
        · intro x _
          exact h.nodeIds.sublist (List.filter_sublist.map _)
        · intro x hx c
          obtain ⟨p, hp, rfl, hpcluster⟩ := hS x hx
          constructor
          · intro hc
            obtain ⟨n, hn, rfl⟩ := List.mem_map.mp hc
            obtain ⟨hmem, hparent⟩ := List.mem_filter.mp hn
            have hparent : n.parent = some p.id := of_decide_eq_true hparent
            obtain ⟨q, hq, hqid, hqcluster, -⟩ := h.parent_mem hdb hmem hparent
            obtain rfl := List.inj_on_of_nodup_map h.nodeIds hq hp hqid
            exact ⟨hin n hmem (hqcluster.symm.trans hpcluster), (h.parentIdOf hmem).trans hparent⟩
          · rintro ⟨hc, hparent⟩
            obtain ⟨n, hn, rfl, -⟩ := hS c hc
            rw [h.parentIdOf hn] at hparent
            exact List.mem_map_of_mem (List.mem_filter.mpr ⟨hn, decide_eq_true hparent⟩)
      · intro rest new
        exact ((List.reverse_perm new).append_right rest).trans List.perm_append_comm
      · exact h.nodeIds.sublist (List.filter_sublist.map _)
      · intro x hx y hparent
        obtain ⟨n, hn, rfl, hsame⟩ := hS x hx
        rw [h.parentIdOf hn] at hparent
        obtain ⟨p, hp, rfl, hpcluster, -⟩ := h.parent_mem hdb hn hparent
        exact hin p hp (hpcluster.trans hsame)
      · intro x hx
        obtain ⟨n, hn, rfl, -⟩ := hS x hx
        exact h.exists_depth hdb hn
      · rw [List.length_map]
        exact List.length_filter_le _ _
    obtain ⟨visits, hwalk, -⟩ := hvisits
    exact ⟨visits, hwalk⟩

end Page.Drawn

/-! ## Measures -/

/-- Depths and counts aside, the pages are the same. -/
structure Page.Same (page page' : Page) : Prop where
  rows : page'.nodes.map PageNode.row = page.nodes.map PageNode.row
  outlines : page'.clusters.map PageCluster.outline = page.clusters.map PageCluster.outline

theorem Page.Same.children (h : page.Same page') : page'.children = page.children := by
  have hchildren (page : Page) (id : Nat) :
      page.children id = ((page.nodes.map PageNode.row).filter (fun n => n.parentId = some id)).map (·.id) := by
    rw [Page.children, List.filter_map, List.map_map]
    rfl
  funext id
  rw [hchildren, hchildren, h.rows]

theorem Page.Same.descend (h : page.Same page') (pc : PageCluster) : page'.descend pc = page.descend pc := by
  have hlength : page'.nodes.length = page.nodes.length := by
    have hrows := congrArg List.length h.rows
    rwa [List.length_map, List.length_map] at hrows
  rw [Page.descend, h.children, hlength, Page.descend]

theorem Page.Same.clusterIds (h : page.Same page') : page'.clusters.map (·.id) = page.clusters.map (·.id) := by
  have houtlines := congrArg (List.map (fun o : Cluster × List Nat × Option Nat => o.1.id)) h.outlines
  rwa [List.map_map, List.map_map] at houtlines

theorem Page.Same.drawn (h : page.Same page') (hdrawn : page.Drawn db) : page'.Drawn db := by
  have hids : page'.nodes.map (·.id) = page.nodes.map (·.id) := by
    have hrows := congrArg (List.map (fun n : Node => n.id)) h.rows
    rwa [List.map_map, List.map_map] at hrows
  have hmem : ∀ n ∈ page'.nodes, ∃ m ∈ page.nodes, m.row = n.row := by
    intro n hn
    exact List.mem_map.mp (h.rows ▸ List.mem_map_of_mem hn)
  have hback : ∀ n ∈ page.nodes, ∃ m ∈ page'.nodes, m.row = n.row := by
    intro n hn
    exact List.mem_map.mp (h.rows ▸ List.mem_map_of_mem hn : n.row ∈ page'.nodes.map PageNode.row)
  constructor
  · rw [h.clusterIds]
    exact hdrawn.clusterIds
  · rw [hids]
    exact hdrawn.nodeIds
  · intro n hn
    obtain ⟨m, hm, he⟩ := hmem n hn
    exact he ▸ hdrawn.rows m hm
  · intro n hn id hparent
    obtain ⟨m, hm, he⟩ := hmem n hn
    have hsame : m.parent = n.parent := congrArg (·.parentId) he
    obtain ⟨p, hp, rfl⟩ := hdrawn.parents m hm id (hsame.trans hparent)
    obtain ⟨q, hq, hqrow⟩ := hback p hp
    exact ⟨q, hq, congrArg (fun n : Node => n.id) hqrow⟩
  · intro c hc id hroot
    obtain ⟨d, hd, he⟩ := List.mem_map.mp (h.outlines ▸ List.mem_map_of_mem hc : c.outline ∈ page.clusters.map _)
    have hdroot : d.root = c.root := congrArg (fun o => o.2.2) he
    have hdid : d.id = c.id := congrArg (fun o => o.1.id) he
    obtain ⟨n, hn, hnid, hcluster, hname⟩ := hdrawn.roots d hd id (hdroot.trans hroot)
    obtain ⟨m, hm, hmrow⟩ := hback n hn
    have hmid : m.id = n.id := congrArg (fun n : Node => n.id) hmrow
    have hmcluster : m.cluster = n.cluster := congrArg (fun n : Node => n.clusterId) hmrow
    have hmname : m.name = n.name := congrArg (fun n : Node => n.name) hmrow
    exact ⟨m, hm, hmid.trans hnid, hmcluster.trans (hcluster.trans hdid), hmname.trans hname⟩

theorem Page.Same.refl (page : Page) : page.Same page := ⟨rfl, rfl⟩

theorem Page.Same.trans {a b c : Page} (h : a.Same b) (h' : b.Same c) : a.Same c :=
  ⟨h'.rows.trans h.rows, h'.outlines.trans h.outlines⟩

theorem foldl_setDepth_same (visits : List (Nat × Nat)) (page : Page) : page.Same (visits.foldl Page.setDepth page) := by
  induction visits generalizing page with
  | nil => exact .refl page
  | cons visit visits ih =>
    have hfirst : page.Same (page.setDepth visit) := by
      refine ⟨?_, rfl⟩
      rw [Page.setDepth, List.map_map]
      apply List.map_congr_left
      intro n _
      rw [Function.comp_apply, apply_ite PageNode.row]
      exact ite_self _
    exact hfirst.trans (ih (page.setDepth visit))

/-- Measuring a cluster changes depths and counts only. -/
theorem Page.measure_same (hdescend : ∃ visits, page.descend pc = some visits) (hpc : pc.outline ∈ page.clusters.map PageCluster.outline)
    (hids : (page.clusters.map (·.id)).Nodup) : ∃ page', page.measure pc = some page' ∧ page.Same page' := by
  obtain ⟨visits, hvisits⟩ := hdescend
  have hsame := foldl_setDepth_same visits page
  rw [measure, hvisits]
  refine ⟨_, rfl, hsame.rows, ?_⟩
  obtain ⟨c, hc, he⟩ := List.mem_map.mp hpc
  have hcid : c.id = pc.id := congrArg (fun o => o.1.id) he
  rw [setCluster_outline, hsame.outlines, List.map_map]
  apply List.map_congr_left
  intro d hd
  rw [Function.comp_apply]
  split
  · rename_i hid
    have hdid : d.id = pc.id := hid
    rw [List.inj_on_of_nodup_map hids hd hc (hdid.trans hcid.symm)]
    exact he.symm
  · rfl

theorem Page.Drawn.rebuildStructure (h : page.Drawn db) (hdb : db.Linked) :
    ∃ page', page.rebuildStructure = some page' ∧ page.Same page' := by
  have hall (clusters : List PageCluster) (hclusters : ∀ pc ∈ clusters, pc ∈ page.clusters) (now : Page) (hnow : page.Same now) :
      ∃ page', clusters.foldlM Page.measure now = some page' ∧ page.Same page' := by
    induction clusters generalizing now with
    | nil => exact ⟨now, rfl, hnow⟩
    | cons pc clusters ih =>
      have hpc := hclusters pc List.mem_cons_self
      have hnowIds : (now.clusters.map (·.id)).Nodup := hnow.clusterIds ▸ h.clusterIds
      obtain ⟨next, hmeasure, hsame⟩ := Page.measure_same ((hnow.descend pc).symm ▸ h.descend hdb hpc)
        (hnow.outlines ▸ List.mem_map_of_mem hpc) hnowIds
      obtain ⟨page', hrest, hpage'⟩ := ih (fun d hd => hclusters d (List.mem_cons_of_mem _ hd)) next (hnow.trans hsame)
      exact ⟨page', by rw [List.foldlM_cons, hmeasure]; exact hrest, hpage'⟩
  exact hall page.clusters (fun _ hpc => hpc) page (.refl page)

/-! ## Updates -/

theorem Page.mem_of_nodeById {id : Nat} (h : page.nodeById id = some pn) : pn ∈ page.nodes ∧ pn.id = id := by
  have hp := List.find?_some h
  exact ⟨List.mem_of_find?_eq_some h, by simpa using hp⟩

theorem Page.mem_of_clusterById {id : Nat} (h : page.clusterById id = some pc) : pc ∈ page.clusters ∧ pc.id = id := by
  have hp := List.find?_some h
  exact ⟨List.mem_of_find?_eq_some h, by simpa using hp⟩

/-- The parent an update names, as far as the page holds it. -/
theorem Page.parentNode_eq {id : Option Nat} {parent : Option PageNode} (h : page.parentNode id = some parent) :
    parent.map (·.id) = id ∧ ∀ p ∈ parent, p ∈ page.nodes := by
  cases id with
  | none =>
    obtain rfl := Option.some.inj h
    exact ⟨rfl, fun p hp => nomatch hp⟩
  | some id =>
    obtain ⟨p, hp, rfl⟩ := Option.map_eq_some_iff.mp h
    obtain ⟨hmem, hid⟩ := mem_of_nodeById hp
    refine ⟨congrArg some hid, ?_⟩
    intro q hq
    rwa [← Option.some.inj hq]

theorem Page.Drawn.mergeCluster (h : page.Drawn db) (c : Cluster) : (page.mergeCluster c).Drawn db := by
  unfold Page.mergeCluster
  cases hfind : page.clusterById c.id with
  | some d => exact h
  | none =>
    refine ⟨?_, h.nodeIds, h.rows, h.parents, ?_⟩
    · simp only [List.map_append, List.map_cons, List.map_nil]
      rw [List.nodup_append']
      refine ⟨h.clusterIds, List.nodup_singleton _, List.disjoint_singleton.mpr ?_⟩
      intro hin
      obtain ⟨d, hd, he⟩ := List.mem_map.mp hin
      exact List.find?_eq_none.mp hfind d hd (decide_eq_true he)
    · intro d hd id hroot
      obtain hd | hd := List.mem_append.mp hd
      · exact h.roots d hd id hroot
      · rw [List.mem_singleton.mp hd] at hroot
        cases hroot

theorem Page.Drawn.setNode (h : page.Drawn db) {pm : PageNode} (hm : pm ∈ page.nodes) (hid : pn.id = pm.id)
    (hcluster : pn.cluster = pm.cluster) (hname : pn.name = pm.name) (htells : db.Tells pn.row)
    (hparent : ∀ id, pn.parent = some id → ∃ p ∈ page.nodes, p.id = id) : (page.setNode pn).Drawn db := by
  have hkeep : ∀ n ∈ page.nodes, (if n.id = pn.id then pn else n).id = n.id ∧
      (if n.id = pn.id then pn else n).cluster = n.cluster ∧ (if n.id = pn.id then pn else n).name = n.name := by
    intro n hn
    split
    · rename_i he
      rw [List.inj_on_of_nodup_map h.nodeIds hn hm (he.trans hid)]
      exact ⟨hid, hcluster, hname⟩
    · exact ⟨rfl, rfl, rfl⟩
  have hback : ∀ n ∈ page.nodes, ∃ m ∈ (page.setNode pn).nodes, m.id = n.id ∧ m.cluster = n.cluster ∧ m.name = n.name :=
    fun n hn => ⟨_, List.mem_map_of_mem hn, hkeep n hn⟩
  constructor
  · exact h.clusterIds
  · rw [setNode_ids]
    exact h.nodeIds
  · intro n hn
    obtain ⟨m, hm, rfl⟩ := List.mem_map.mp hn
    split
    · exact htells
    · exact h.rows m hm
  · intro n hn id he
    have hold : ∃ p ∈ page.nodes, p.id = id := by
      obtain ⟨m, hm, rfl⟩ := List.mem_map.mp hn
      split at he
      · exact hparent id he
      · exact h.parents m hm id he
    obtain ⟨p, hp, rfl⟩ := hold
    obtain ⟨q, hq, hqid, -⟩ := hback p hp
    exact ⟨q, hq, hqid⟩
  · intro c hc id hroot
    obtain ⟨n, hn, hnid, hncluster, hnname⟩ := h.roots c hc id hroot
    obtain ⟨q, hq, hqid, hqcluster, hqname⟩ := hback n hn
    exact ⟨q, hq, hqid.trans hnid, hqcluster.trans hncluster, hqname.trans hnname⟩

theorem Page.Drawn.addNode (h : page.Drawn db) (pn : PageNode) (hpc : pc ∈ page.clusters) (hcluster : pn.cluster = pc.id)
    (hnew : ∀ n ∈ page.nodes, n.id ≠ pn.id) (htells : db.Tells pn.row)
    (hparent : ∀ id, pn.parent = some id → ∃ p ∈ page.nodes, p.id = id) (nodes : List Nat) :
    Page.Drawn db { page.setCluster { pc with nodes, root := if pn.parent = none then some pn.id else pc.root } with
      nodes := page.nodes ++ [pn] } := by
  constructor
  · rw [show (page.setCluster _).clusters.map (·.id) = page.clusters.map (·.id) from setCluster_ids page _]
    exact h.clusterIds
  · simp only [List.map_append, List.map_cons, List.map_nil]
    rw [List.nodup_append']
    refine ⟨h.nodeIds, List.nodup_singleton _, List.disjoint_singleton.mpr ?_⟩
    intro hin
    obtain ⟨n, hn, he⟩ := List.mem_map.mp hin
    exact hnew n hn he
  · intro n hn
    obtain hn | hn := List.mem_append.mp hn
    · exact h.rows n hn
    · rw [List.mem_singleton.mp hn]
      exact htells
  · intro n hn id he
    have hold : ∃ p ∈ page.nodes, p.id = id := by
      obtain hn | hn := List.mem_append.mp hn
      · exact h.parents n hn id he
      · rw [List.mem_singleton.mp hn] at he
        exact hparent id he
    obtain ⟨p, hp, hpid⟩ := hold
    exact ⟨p, List.mem_append_left _ hp, hpid⟩
  · have hkept : ∀ c ∈ page.clusters, ∀ id, c.root = some id →
        ∃ n ∈ page.nodes ++ [pn], n.id = id ∧ n.cluster = c.id ∧ n.name = ROOT_NODE := by
      intro c hc id hroot
      obtain ⟨n, hn, hfacts⟩ := h.roots c hc id hroot
      exact ⟨n, List.mem_append_left _ hn, hfacts⟩
    intro c hc id hroot
    obtain ⟨d, hd, rfl⟩ := List.mem_map.mp hc
    by_cases hsame : d.id = pc.id
    · simp only [hsame, if_true] at hroot ⊢
      by_cases hnone : pn.parent = none
      · rw [if_pos hnone] at hroot
        -- a row without a parent is the root of its cluster
        have hname : pn.name = ROOT_NODE := by
          by_contra hname
          obtain ⟨other, hother, -⟩ := htells.parent hname
          exact nomatch hnone.symm.trans hother
        exact ⟨pn, List.mem_append_right _ (List.mem_singleton_self _), Option.some.inj hroot, hcluster, hname⟩
      · rw [if_neg hnone] at hroot
        exact hkept pc hpc id hroot
    · simp only [hsame, if_false] at hroot ⊢
      exact hkept d hd id hroot

/-- A row that has a place on the page. -/
theorem Page.Drawn.mergeNode (h : page.Drawn db) (hdb : db.Linked) {update : NodeUpdate} (htells : db.Tells update.row)
    {structural : Bool} {state : Page × Bool} (hmerge : Page.mergeNode (page, structural) update = some state) :
    state.1.Drawn db := by
  obtain ⟨c, hc, hmerge⟩ := Option.bind_eq_some_iff.mp hmerge
  obtain ⟨parent, hparent, hmerge⟩ := Option.bind_eq_some_iff.mp hmerge
  obtain ⟨hcmem, hcid⟩ := mem_of_clusterById hc
  obtain ⟨hpid, hpmem⟩ := parentNode_eq hparent
  have hknown : ∀ id, parent.map (·.id) = some id → ∃ p ∈ page.nodes, p.id = id := by
    intro id he
    obtain ⟨p, hp, rfl⟩ := Option.map_eq_some_iff.mp he
    exact ⟨p, hpmem p hp, rfl⟩
  cases hnode : page.nodeById update.id with
  | none =>
    rw [hnode] at hmerge
    have hrow : (⟨update.id, update.name, update.status, parent.elim 0 (fun parent => parent.depth + 1), c.id,
        parent.map (·.id)⟩ : PageNode).row = update.row := by
      rw [PageNode.row, hcid, hpid]
      rfl
    have hnew : ∀ n ∈ page.nodes, n.id ≠ update.id :=
      fun n hn he => List.find?_eq_none.mp hnode n hn (decide_eq_true he)
    have hadded := h.addNode ⟨update.id, update.name, update.status, parent.elim 0 (fun parent => parent.depth + 1), c.id,
      parent.map (·.id)⟩ hcmem rfl hnew (hrow ▸ htells) hknown (c.nodes ++ [update.id])
    rw [← Option.some.inj hmerge]
    simpa only [Option.map_eq_none_iff] using hadded
  | some node =>
    rw [hnode] at hmerge
    obtain ⟨hmem, hid⟩ := mem_of_nodeById hnode
    obtain ⟨a, ha, haid, hacluster, haname⟩ := (h.rows node hmem).named
    obtain ⟨b, hb, hbid, hbcluster, hbname⟩ := htells.named
    obtain rfl := hdb.eq_of_id ha hb (haid.trans (hid.trans hbid.symm))
    have hrow : ({ node with status := update.status, parent := parent.map (·.id) } : PageNode).row = update.row := by
      have hcluster : node.cluster = update.clusterId := hacluster.symm.trans hbcluster
      have hname : node.name = update.name := haname.symm.trans hbname
      rw [PageNode.row, hid, hcluster, hname, hpid]
      rfl
    rw [← Option.some.inj hmerge]
    exact h.setNode hmem rfl rfl rfl (hrow ▸ htells) hknown

theorem Page.Drawn.mergeNodes (state : Page × Bool) (h : state.1.Drawn db) (hdb : db.Linked) {nodes : List NodeUpdate}
    (hnodes : ∀ n ∈ nodes, db.Tells n.row) : (Page.mergeNodes state nodes).1.1.Drawn db := by
  induction nodes generalizing state with
  | nil => exact h
  | cons n nodes ih =>
    rw [Page.mergeNodes]
    cases hmerge : Page.mergeNode state n with
    | none => exact h
    | some next =>
      have hnext := h.mergeNode hdb (hnodes n List.mem_cons_self) hmerge
      exact ih next hnext (fun m hm => hnodes m (List.mem_cons_of_mem _ hm))

theorem Page.Drawn.tryMerge (h : page.Drawn db) (hdb : db.Linked) {update : Update}
    (hnodes : ∀ n ∈ update.nodes, db.Tells n.row) :
    ∃ page' placed, page.tryMerge update = some (page', placed) ∧ page'.Drawn db := by
  have hclusters (clusters : List Cluster) (page : Page) (h : page.Drawn db) : (clusters.foldl Page.mergeCluster page).Drawn db := by
    induction clusters generalizing page with
    | nil => exact h
    | cons c clusters ih => exact ih _ (h.mergeCluster c)
  have hmerged := Page.Drawn.mergeNodes (update.clusters.foldl Page.mergeCluster page, false)
    (hclusters update.clusters page h) hdb hnodes
  rw [Page.tryMerge]
  generalize Page.mergeNodes (update.clusters.foldl Page.mergeCluster page, false) update.nodes = result at hmerged
  obtain ⟨⟨merged, structural⟩, placed⟩ := result
  cases placed with
  | false => exact ⟨merged, false, rfl, hmerged⟩
  | true =>
    cases structural with
    | false => exact ⟨merged, true, rfl, hmerged⟩
    | true =>
      obtain ⟨page', hrebuild, hsame⟩ := hmerged.rebuildStructure hdb
      exact ⟨page', true, congrArg (Option.map (fun page => (page, true))) hrebuild, hsame.drawn hmerged⟩

theorem page_drawn (h : db.Linked) : db.page.Drawn db := by
  have hmem : ∀ n ∈ db.page.nodes, n.row ∈ db.nodes := by
    intro n hn
    obtain ⟨m, hm, rfl⟩ := List.mem_map.mp hn
    exact hm
  constructor
  · exact (page_shows h).clusterIds
  · exact (page_shows h).nodeIds
  · exact fun n hn => h.tells (hmem n hn)
  · intro n hn id hparent
    obtain ⟨p, hp, rfl⟩ := h.parent_exists (hmem n hn) id hparent
    exact ⟨_, List.mem_map_of_mem hp, rfl⟩
  · intro c hc id hroot
    obtain ⟨d, -, rfl⟩ := List.mem_map.mp hc
    obtain ⟨r, hr, rfl⟩ := Option.map_eq_some_iff.mp hroot
    obtain ⟨hmem, hcluster, hname⟩ := mem_of_node? hr
    exact ⟨_, List.mem_map_of_mem hmem, rfl, hcluster, hname⟩

/-! ## Every run -/

/-- The rows of every update that was ever broadcast are rows the tables had. -/
theorem broadcasts_tell (h : db.Linked) (hr : db.Rooted) (valid : List Char → Bool) (requests : List Request) {update : Update}
    (hupdate : update ∈ broadcasts valid db requests) : ∀ n ∈ update.nodes, (handleAll valid db requests).Tells n.row := by
  induction requests generalizing db with
  | nil => cases hupdate
  | cons request requests ih =>
    obtain ⟨hl', hr'⟩ := handle_linked h hr valid request
    obtain hsent | hlater := List.mem_append.mp hupdate
    · intro n hn
      have hannounces := handle_announces h hr valid request (Option.mem_toList.mp hsent)
      have hrow := hannounces.rows n.row (List.mem_map_of_mem hn)
      exact (hl'.tells hrow).mono (handleAll_knows hl' hr' valid requests)
    · exact ih hl' hr' hlater

theorem ReadBy.loads {valid : List Char → Bool} {requests : List Request} {seen : Nat} {graph : Graph}
    (h : ReadBy valid requests seen graph) :
    ∃ db : Db, db.Linked ∧ (handleAll valid {} requests).Knows db ∧ Page.load graph = some db.page := by
  obtain ⟨before, after, db, rfl, -, hdb, hgraph⟩ := h
  obtain ⟨hl, hr⟩ := handleAll_linked empty_linked empty_rooted valid before
  have hafter : handleAll valid {} (before ++ after) = handleAll valid (handleAll valid {} before) after := List.foldl_append
  have hknows := handleAll_knows hl hr valid after
  rw [← hafter] at hknows
  have hsettled (hgraph : getGraph (handleAll valid {} before) = some graph) :
      ∃ db : Db, db.Linked ∧ (handleAll valid {} (before ++ after)).Knows db ∧ Page.load graph = some db.page := by
    rw [getGraph_eq hl hr] at hgraph
    exact ⟨_, hl, hknows, Option.some.inj hgraph ▸ load_graph hl hr⟩
  obtain rfl | ⟨request, hrequest, hmid⟩ := hdb
  · exact hsettled hgraph
  · obtain ⟨after, rfl⟩ : ∃ later, after = request :: later := List.head?_eq_some_iff.mp hrequest
    obtain ⟨update, -, -, hcluster | hmid⟩ := (handle_told hl hr valid request).of_mem hmid
    · obtain ⟨netloc, rfl⟩ := hcluster
      exact hsettled (getGraph_addCluster hl _ ▸ hgraph)
    · obtain ⟨hl', hr'⟩ := handle_linked hl hr valid request
      rw [getGraph_eq hmid.linked hmid.rooted] at hgraph
      refine ⟨db, hmid.linked, ?_, Option.some.inj hgraph ▸ load_graph hmid.linked hmid.rooted⟩
      rw [hafter, handleAll_cons]
      exact (handleAll_knows hl' hr' valid after).trans hmid.after

variable {valid : List Char → Bool} {s : Service}

theorem Service.Sound.told (h : s.Sound valid) {id : BrowserId} {m : Message}
    (hm : m ∈ (s.browsers id).merged ++ (s.browsers id).onWay) :
    ∀ n ∈ m.2.nodes, (handleAll valid {} s.requests).Tells n.row := by
  have hsent := List.mem_of_getElem? ((h.browsers id).messages m hm)
  apply broadcasts_tell empty_linked empty_rooted
  rw [← h.finished.2]
  exact List.mem_append_left _ hsent

theorem Service.Sound.drawn (h : s.Sound valid) (id : BrowserId) :
    (s.browsers id).page.Drawn (handleAll valid {} s.requests) := by
  obtain ⟨hdb, -⟩ := handleAll_linked empty_linked empty_rooted valid s.requests
  obtain ⟨first, hload, hpage⟩ := (h.browsers id).page
  obtain ⟨hread, -⟩ := (h.browsers id).reads _ (.inr rfl)
  obtain ⟨db, hl, hknows, hdbload⟩ := hread.loads
  obtain rfl := Option.some.inj (hdbload.symm.trans hload)
  have hstart := (page_drawn hl).mono hknows
  have hrows : ∀ update ∈ (s.browsers id).merged.map Prod.snd, ∀ n ∈ update.nodes,
      (handleAll valid {} s.requests).Tells n.row := by
    intro update hupdate
    obtain ⟨m, hm, rfl⟩ := List.mem_map.mp hupdate
    exact h.told (List.mem_append_left _ hm)
  generalize (s.browsers id).merged.map Prod.snd = updates at hpage hrows
  generalize db.page = page at hpage hstart
  induction updates generalizing page with
  | nil => exact Option.some.inj hpage ▸ hstart
  | cons update updates ih =>
    obtain ⟨next, placed, hmerge, hnext⟩ := hstart.tryMerge hdb (hrows update List.mem_cons_self)
    rw [Page.tryMerges, List.foldlM_cons, hmerge] at hpage
    exact ih (fun u hu => hrows u (List.mem_cons_of_mem _ hu)) next hpage hnext

/-- Whatever updates a browser lost and whichever snapshots it loaded when: what its page
shows are trees of nodes under the names they have in the tables, and no update on its
way and no snapshot makes it throw or go on forever. -/
theorem page_survives_gaps (h : Reaches (Service.step valid) Free {} s) (id : BrowserId) :
    (∀ n ∈ (s.browsers id).page.nodes, (∃ d, Forest.Depth (s.browsers id).page.parentIdOf n.id d) ∧
        ∃ m ∈ s.settled.nodes, m.id = n.id ∧ m.clusterId = n.cluster ∧ m.name = n.name) ∧
      (∀ m ∈ (s.browsers id).onWay, ∃ page placed, (s.browsers id).page.tryMerge m.2 = some (page, placed)) ∧
      ∀ response ∈ (s.browsers id).responses, ∃ page, Page.load response.graph = some page := by
  have hsound := Service.reaches_sound h
  obtain ⟨hdb, -⟩ := handleAll_linked empty_linked empty_rooted valid s.requests
  have hdrawn := hsound.drawn id
  refine ⟨?_, ?_, ?_⟩
  · intro n hn
    refine ⟨hdrawn.exists_depth hdb hn, ?_⟩
    rw [hsound.finished.1]
    exact (hdrawn.rows n hn).named
  · intro m hm
    obtain ⟨page, placed, hmerge, -⟩ := hdrawn.tryMerge hdb (hsound.told (List.mem_append_right _ hm))
    exact ⟨page, placed, hmerge⟩
  · intro response hresponse
    obtain ⟨db, -, -, hload⟩ := ((hsound.browsers id).reads response (.inl hresponse)).1.loads
    exact ⟨db.page, hload⟩

/-- A browser misses a directory and is told of a page in it. -/
def missed : List StreamAction :=
  [.receive ⟨storedOrder, .pending "http://h/a".toList⟩, .commit, .commit, .commit, .commit, .broadcast, .reload 0, .load 0 0,
    .receive ⟨storedOrder, .pending "http://h/b/".toList⟩, .commit, .commit, .broadcast, .subscribe 0,
    .receive ⟨storedOrder, .pending "http://h/b/c".toList⟩, .commit, .commit, .broadcast, .deliver 0, .yield 0, .message 0]

/-- It does not place the page, and is going to reload. -/
theorem page_survives_missed : ∃ s, Reaches (Service.step (fun _ => true)) Free {} s ∧ (s.browsers 0).resyncTimer = true ∧
    (s.browsers 0).page.nodes.map (·.id) = [1, 2] ∧ ∀ n ∈ (s.browsers 0).page.nodes,
      (∃ d, Forest.Depth (s.browsers 0).page.parentIdOf n.id d) ∧
        ∃ m ∈ s.settled.nodes, m.id = n.id ∧ m.clusterId = n.cluster ∧ m.name = n.name := by
  obtain ⟨s, hs, htest⟩ := exists_reaches_free (Service.step (fun _ => true)) {} missed
    (fun s => (s.browsers 0).resyncTimer && (s.browsers 0).page.nodes.map (·.id) = [1, 2]) (by decide +kernel)
  simp only [Bool.and_eq_true, decide_eq_true_eq] at htest
  exact ⟨s, hs, htest.1, htest.2, (page_survives_gaps hs 0).1⟩

end

end Linksurf.Visualization
