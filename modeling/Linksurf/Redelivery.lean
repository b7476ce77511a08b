import Linksurf.Replay
import Linksurf.Updates

/-!
# Updates delivered again

A snapshot may be newer than updates that are still on their way to the browser
that loads it. Such an update sets rows the page knows back to what they were,
and the later ones bring them forward again, so the page ends where the tables
are. On the way it shows rows of different times, which still form trees.
-/
namespace Linksurf.Visualization

open Replay

/-- The row an update tells of. -/
def NodeUpdate.row (n : NodeUpdate) : Node := ⟨n.id, n.name, n.status, n.clusterId, n.parent⟩

def Update.rows (update : Update) : List Node := update.nodes.map NodeUpdate.row

/-- The writes of an update, by id. -/
def Update.log (update : Update) : List (Nat × Node) := update.rows.map (fun n => (n.id, n))

namespace Db

/-- Store a row, in place of the one with its id. -/
def put (db : Db) (n : Node) : Db := if db.nodes.any (fun m => m.id = n.id) then db.save n else db.addNode n

def putCluster (db : Db) (c : Cluster) : Db := if db.clusters.any (fun d => d.id = c.id) then db else db.addCluster c

/-- The tables with the rows of an update. -/
def overwrite (db : Db) (update : Update) : Db := update.rows.foldl put (update.clusters.foldl putCluster db)

/-- Every row of the other tables is here, whatever its status and its parent. -/
structure Knows (db other : Db) : Prop where
  clusters : other.clusters ⊆ db.clusters
  nodes : ∀ p ∈ other.nodes, ∃ p' ∈ db.nodes, p'.id = p.id ∧ p'.clusterId = p.clusterId ∧ p'.name = p.name

/-- The two tables call the same nodes by the same ids. -/
def Agrees (db other : Db) : Prop :=
  ∀ n ∈ db.nodes, ∀ m ∈ other.nodes, n.id = m.id ↔ n.clusterId = m.clusterId ∧ n.name = m.name

end Db

/-- Rows of which each comes after its parent and after the rows with smaller ids. -/
def InTurn (stored : Nat) : List Node → Prop
  | [] => True
  | n :: rows => n.id ≤ stored + 1 ∧ (∀ id, n.parentId = some id → id ≤ stored) ∧ InTurn (max stored n.id) rows

/-- The page of a browser between the rows of an update. The rows are those of the
target, and unless the structure has changed the page is that of a reload. -/
structure Tracks (target db : Db) (state : Page × Bool) : Prop where
  linked : db.Linked
  agrees : db.Agrees target
  clusters : target.clusters ⊆ db.clusters
  shows : Shows db state.1
  page : state.2 = false → state.1 = db.page

/-- What an update tells of the tables before and after its event. -/
structure Announces (db : Db) (update : Update) (db' : Db) : Prop where
  linked : db'.Linked
  rooted : db'.Rooted
  knows : db'.Knows db
  clusters : update.clusters = [] ∧ db'.clusters = db.clusters ∨
    ∃ netloc, db.cluster? netloc = none ∧ update.clusters = [db.newCluster netloc] ∧
      db'.clusters = db.clusters ++ [db.newCluster netloc]
  rows : ∀ n ∈ update.rows, n ∈ db'.nodes
  inTurn : InTurn db.nodes.length update.rows
  others : ∀ id, id ∉ update.rows.map (·.id) → db'.nodeById id = db.nodeById id

section

variable {db db' target : Db} {n m : Node} {c : Cluster} {id : Nat} {rows : List Node} {state : Page × Bool}

/-! ## Rows in place of others -/

theorem mem_of_nodeById (h : db.nodeById id = some n) : n ∈ db.nodes ∧ n.id = id := by
  have hp := List.find?_some h
  exact ⟨List.mem_of_find?_eq_some h, by simpa using hp⟩

theorem nodeById_save (db : Db) (n : Node) (hne : id ≠ n.id) : (db.save n).nodeById id = db.nodeById id := by
  have hsame : ∀ m : Node, decide ((if m.id = n.id then n else m).id = id) = decide (m.id = id) := by
    intro m
    split
    · rename_i he
      rw [he]
    · rfl
  have hfind : (db.save n).nodeById id = (db.nodeById id).map (fun m => if m.id = n.id then n else m) := by
    rw [Db.nodeById, Db.save, List.find?_map, Db.nodeById]
    congr 2
    exact funext hsame
  rw [hfind]
  cases hnode : db.nodeById id with
  | none => rfl
  | some m =>
    rw [Option.map_some, if_neg ((mem_of_nodeById hnode).2 ▸ hne)]

theorem nodeById_put (db : Db) (n : Node) : (db.put n).nodeById = write db.nodeById (n.id, n) := by
  funext id
  by_cases he : id = n.id
  · subst he
    rw [write, Function.update_self, Db.put]
    split
    · rename_i hany
      obtain ⟨m, hm, hid⟩ := List.any_eq_true.mp hany
      cases hfind : (db.save n).nodeById n.id with
      | none =>
        have hno := List.find?_eq_none.mp hfind _ (List.mem_map_of_mem hm)
        rw [if_pos (of_decide_eq_true hid)] at hno
        exact absurd (decide_eq_true rfl) hno
      | some p =>
        obtain ⟨hmem, hp⟩ := mem_of_nodeById hfind
        obtain ⟨q, -, hq⟩ := List.mem_map.mp hmem
        by_cases hqid : q.id = n.id
        · rw [if_pos hqid] at hq
          rw [hq]
        · rw [if_neg hqid] at hq
          exact absurd (hq ▸ hp) hqid
    · rename_i hany
      have hnone : db.nodes.find? (fun m => m.id = n.id) = none := by
        apply List.find?_eq_none.mpr
        intro m hm he
        exact hany (List.any_eq_true.mpr ⟨m, hm, he⟩)
      simp [Db.nodeById, Db.addNode, List.find?_append, hnone]
  · rw [write, Function.update_of_ne he, Db.put]
    split
    · exact nodeById_save db n he
    · have hne : n.id ≠ id := fun hsame => he hsame.symm
      simp [Db.nodeById, Db.addNode, List.find?_append, hne]

theorem nodeById_puts (rows : List Node) (db : Db) :
    (rows.foldl Db.put db).nodeById = replay db.nodeById (rows.map (fun n => (n.id, n))) := by
  induction rows generalizing db with
  | nil => rfl
  | cons n rows ih =>
    rw [List.foldl_cons, ih, nodeById_put]
    rfl

theorem putClusters_nodes (clusters : List Cluster) (db : Db) : (clusters.foldl Db.putCluster db).nodes = db.nodes := by
  induction clusters generalizing db with
  | nil => rfl
  | cons c clusters ih =>
    rw [List.foldl_cons, ih, Db.putCluster]
    split
    · rfl
    · rfl

theorem nodeById_overwrite (db : Db) (update : Update) :
    (db.overwrite update).nodeById = replay db.nodeById update.log := by
  have hnodes := putClusters_nodes update.clusters db
  rw [Db.overwrite, nodeById_puts]
  congr 1
  funext id
  rw [Db.nodeById, hnodes, Db.nodeById]

/-- The ids of the tables tell their rows apart. -/
theorem Db.Linked.ext (h : db.Linked) (h' : db'.Linked) (hclusters : db.clusters = db'.clusters)
    (hnodes : db.nodeById = db'.nodeById) : db = db' := by
  have hlength {db db' : Db} (h : db.Linked) (h' : db'.Linked) (hnodes : db.nodeById = db'.nodeById) :
      db.nodes.length ≤ db'.nodes.length := by
    by_contra hlt
    have hlast : db.nodes.length ∈ db.nodes.map (·.id) := by
      rw [h.nodeIds, List.mem_range'_1]
      omega
    obtain ⟨n, hn, he⟩ := List.mem_map.mp hlast
    have hfind := h.nodeById hn
    rw [hnodes] at hfind
    have hle := h'.node_id_le (mem_of_nodeById hfind).1
    omega
  have hsame : db.nodes.length = db'.nodes.length := le_antisymm (hlength h h' hnodes) (hlength h' h hnodes.symm)
  have hrows : db.nodes = db'.nodes := by
    apply List.ext_getElem hsame
    intro i hi hi'
    have hid : db.nodes[i].id = db'.nodes[i].id := by
      have hids : (db.nodes.map (·.id))[i]? = (db'.nodes.map (·.id))[i]? := by rw [h.nodeIds, h'.nodeIds, hsame]
      simpa [hi, hi'] using hids
    have hfind := h.nodeById (List.getElem_mem hi)
    rw [hnodes, hid, h'.nodeById (List.getElem_mem hi')] at hfind
    exact (Option.some.inj hfind).symm
  calc db = ⟨db.clusters, db.nodes⟩ := rfl
    _ = db' := by rw [hclusters, hrows]

/-! ## One row -/

theorem Db.Linked.id_pos (h : db.Linked) (hn : n ∈ db.nodes) : 1 ≤ n.id := by
  have hmem : n.id ∈ db.nodes.map (·.id) := List.mem_map_of_mem hn
  rw [h.nodeIds, List.mem_range'_1] at hmem
  exact hmem.1

theorem Db.Linked.exists_id (h : db.Linked) (hpos : 1 ≤ id) (hle : id ≤ db.nodes.length) : ∃ n ∈ db.nodes, n.id = id := by
  have hmem : id ∈ db.nodes.map (·.id) := by
    rw [h.nodeIds, List.mem_range'_1]
    omega
  exact List.mem_map.mp hmem

theorem put_known (hm : m ∈ db.nodes) (hid : m.id = n.id) : db.put n = db.save n :=
  if_pos (List.any_eq_true.mpr ⟨m, hm, decide_eq_true hid⟩)

theorem put_new (hid : ∀ m ∈ db.nodes, m.id ≠ n.id) : db.put n = db.addNode n := by
  apply if_neg
  intro hany
  obtain ⟨m, hm, he⟩ := List.any_eq_true.mp hany
  exact hid m hm (of_decide_eq_true he)

/-- What a row is replaced by has its id, its cluster and its name. -/
theorem save_keeps (h : db.Linked) (hm : m ∈ db.nodes)
    (hkeep : n.id = m.id ∧ n.clusterId = m.clusterId ∧ n.name = m.name) : ∀ p ∈ db.nodes,
      (if p.id = n.id then n else p).id = p.id ∧ (if p.id = n.id then n else p).clusterId = p.clusterId ∧
        (if p.id = n.id then n else p).name = p.name := by
  intro p hp
  split
  · rename_i he
    rw [h.eq_of_id hp hm (he.trans hkeep.1)]
    exact hkeep
  · exact ⟨rfl, rfl, rfl⟩

theorem Db.Linked.save (h : db.Linked) (hm : m ∈ db.nodes)
    (hkeep : n.id = m.id ∧ n.clusterId = m.clusterId ∧ n.name = m.name) (hroot : n.name = ROOT_NODE → n.parentId = none)
    (hparent : n.name ≠ ROOT_NODE → ∃ id, n.parentId = some id ∧ db.Fits n.clusterId n.name id) : (db.save n).Linked := by
  apply h.mapNodes (save_keeps h hm hkeep)
  · intro p hp hname
    split
    · rename_i he
      rw [h.eq_of_id hp hm (he.trans hkeep.1)] at hname
      exact hroot (hkeep.2.2.trans hname)
    · exact h.root p hp hname
  · intro p hp hname
    split
    · rename_i he
      rw [h.eq_of_id hp hm (he.trans hkeep.1)] at hname ⊢
      rw [← hkeep.2.1, ← hkeep.2.2]
      exact hparent (hkeep.2.2 ▸ hname)
    · exact h.parent p hp hname

theorem Db.Rooted.save (h : db.Rooted) (hl : db.Linked) (hm : m ∈ db.nodes)
    (hkeep : n.id = m.id ∧ n.clusterId = m.clusterId ∧ n.name = m.name) : (db.save n).Rooted :=
  h.mapNodes (fun p hp => (save_keeps hl hm hkeep p hp).2)

/-- The parent that fits a row in the target fits it here as soon as it is known. -/
theorem Tracks.fits (h : Tracks target db state) (ht : target.Linked) (hn : n ∈ target.nodes)
    (hparent : ∀ id, n.parentId = some id → id ≤ db.nodes.length) (hname : n.name ≠ ROOT_NODE) :
    ∃ id, n.parentId = some id ∧ db.Fits n.clusterId n.name id := by
  obtain ⟨id, hid, p, hp, rfl, hcluster, hshorter⟩ := ht.parent n hn hname
  obtain ⟨q, hq, hqid⟩ := h.linked.exists_id (ht.id_pos hp) (hparent p.id hid)
  obtain ⟨hsame, hqname⟩ := (h.agrees q hq p hp).mp hqid
  exact ⟨p.id, hid, q, hq, hqid, hsame.trans hcluster, hqname ▸ hshorter⟩

theorem Tracks.agrees_put (h : Tracks target db state) (ht : target.Linked) (hn : n ∈ target.nodes) :
    (db.put n).Agrees target := by
  have hself : ∀ m ∈ target.nodes, n.id = m.id ↔ n.clusterId = m.clusterId ∧ n.name = m.name := by
    intro m hm
    constructor
    · intro hid
      rw [ht.eq_of_id hn hm hid]
      exact ⟨rfl, rfl⟩
    · rintro ⟨hcluster, hname⟩
      rw [ht.eq_of_name hn hm hcluster hname]
  intro p hp
  unfold Db.put at hp
  split at hp
  · obtain ⟨q, hq, rfl⟩ := List.mem_map.mp hp
    split
    · exact hself
    · exact h.agrees q hq
  · obtain hp | hp := List.mem_append.mp hp
    · exact h.agrees p hp
    · rw [List.mem_singleton.mp hp]
      exact hself

/-- A row of the target takes its place on the page. -/
theorem Tracks.put (h : Tracks target db state) (ht : target.Linked) (hn : n ∈ target.nodes)
    (hid : n.id ≤ db.nodes.length + 1) (hparent : ∀ id, n.parentId = some id → id ≤ db.nodes.length) :
    ∃ state', Page.mergeNode state n.update = some state' ∧ Tracks target (db.put n) state' ∧
      (db.put n).nodes.length = max db.nodes.length n.id := by
  obtain ⟨page, structural⟩ := state
  have hagrees := h.agrees_put ht hn
  have hfits := h.fits ht hn hparent
  have hknown : ∀ id, n.parentId = some id → ∃ p ∈ db.nodes, p.id = id := by
    intro id he
    obtain ⟨q, hq, rfl, -⟩ := ht.parent_mem hn he
    exact h.linked.exists_id (ht.id_pos hq) (hparent q.id he)
  obtain ⟨c, hc, hcluster⟩ := ht.clustered n hn
  have hcdb := h.clusters hc
  by_cases hle : n.id ≤ db.nodes.length
  · obtain ⟨m, hm, hmid⟩ := h.linked.exists_id (ht.id_pos hn) hle
    obtain ⟨hmcluster, hmname⟩ := (h.agrees m hm n hn).mp hmid
    have hkeep : n.id = m.id ∧ n.clusterId = m.clusterId ∧ n.name = m.name := ⟨hmid.symm, hmcluster.symm, hmname.symm⟩
    have hlinked := h.linked.save hm hkeep (ht.root n hn) hfits
    rw [put_known hm hmid] at hagrees ⊢
    obtain ⟨page', hmerge, hshows⟩ := h.shows.save hcdb hcluster hm hkeep hknown structural
    refine ⟨_, hmerge, ⟨hlinked, hagrees, h.clusters, hshows, ?_⟩, ?_⟩
    · intro hflag
      obtain ⟨hstructural, hsame⟩ := Bool.or_eq_false_iff.mp hflag
      have hparents : m.parentId = n.parentId := by simpa using hsame
      have hrow : n = { m with status := n.status } := by
        rw [hmid, hmname, hmcluster, hparents]
      -- a row of which the status alone is new
      have hstatus := merge_status h.linked hm n.status
      rw [← hrow, Page.merge, List.foldl_nil, List.foldlM_cons, ← h.page hstructural, ← hstructural, hmerge] at hstatus
      simpa [hstructural, hparents] using hstatus
    · rw [Db.save, List.length_map]
      omega
  · have hnew : ∀ m ∈ db.nodes, m.id ≠ n.id := by
      intro m hm he
      have hmle := h.linked.node_id_le hm
      omega
    have hfresh : db.node? n.clusterId n.name = none := by
      cases hnode : db.node? n.clusterId n.name with
      | none => rfl
      | some m =>
        obtain ⟨hm, hsame⟩ := mem_of_node? hnode
        exact absurd ((h.agrees m hm n hn).mpr hsame) (hnew m hm)
    have hlinked := h.linked.addNode (by omega) hcdb hcluster.symm (ht.nonempty n hn) hfresh (ht.root n hn) hfits
    rw [put_new hnew] at hagrees ⊢
    obtain ⟨page', hmerge, hshows⟩ := h.shows.addNode hcdb hcluster.symm hnew (parentId_none_iff ht hn)
      (fun he => he ▸ hfresh) hknown structural
    refine ⟨_, hmerge, ⟨hlinked, hagrees, h.clusters, hshows, ?_⟩, ?_⟩
    · intro hflag
      cases hflag
    · simp only [Db.addNode, List.length_append, List.length_singleton]
      omega

/-- The row in whose place another one comes. -/
theorem Tracks.replaced (h : Tracks target db state) (ht : target.Linked) (hn : n ∈ target.nodes) (hle : n.id ≤ db.nodes.length) :
    ∃ m ∈ db.nodes, m.id = n.id ∧ n.id = m.id ∧ n.clusterId = m.clusterId ∧ n.name = m.name := by
  obtain ⟨m, hm, hmid⟩ := h.linked.exists_id (ht.id_pos hn) hle
  obtain ⟨hcluster, hname⟩ := (h.agrees m hm n hn).mp hmid
  exact ⟨m, hm, hmid, hmid.symm, hcluster.symm, hname.symm⟩

namespace Db.Knows

theorem refl (db : Db) : db.Knows db := ⟨fun _ hc => hc, fun p hp => ⟨p, hp, rfl, rfl, rfl⟩⟩

theorem trans {a b c : Db} (h : a.Knows b) (h' : b.Knows c) : a.Knows c where
  clusters := List.Subset.trans h'.clusters h.clusters
  nodes p hp := by
    obtain ⟨q, hq, hid, hcluster, hname⟩ := h'.nodes p hp
    obtain ⟨r, hr, hid', hcluster', hname'⟩ := h.nodes q hq
    exact ⟨r, hr, hid'.trans hid, hcluster'.trans hcluster, hname'.trans hname⟩

theorem mapNodes {f : Node → Node}
    (hkeep : ∀ n ∈ db.nodes, (f n).id = n.id ∧ (f n).clusterId = n.clusterId ∧ (f n).name = n.name) :
    Db.Knows { db with nodes := db.nodes.map f } db :=
  ⟨fun _ hc => hc, fun p hp => ⟨f p, List.mem_map_of_mem hp, hkeep p hp⟩⟩

theorem addNode (db : Db) (n : Node) : (db.addNode n).Knows db :=
  ⟨fun _ hc => hc, fun p hp => ⟨p, List.mem_append_left _ hp, rfl, rfl, rfl⟩⟩

theorem addCluster (db : Db) (c : Cluster) : (db.addCluster c).Knows db :=
  ⟨fun _ hc => List.mem_append_left _ hc, fun p hp => ⟨p, hp, rfl, rfl, rfl⟩⟩

theorem length_le (h : db.Knows db') (hl : db.Linked) (hl' : db'.Linked) : db'.nodes.length ≤ db.nodes.length := by
  by_contra hlt
  obtain ⟨p, hp, hid⟩ := hl'.exists_id (show 1 ≤ db'.nodes.length by omega) le_rfl
  obtain ⟨q, hq, hqid, -⟩ := h.nodes p hp
  have hle := hl.node_id_le hq
  omega

/-- A node known by its name is known by its id, and the other way round. -/
theorem agrees (h : db.Knows db') (hl : db.Linked) : db.Agrees db' := by
  intro n hn m hm
  obtain ⟨p, hp, hid, hcluster, hname⟩ := h.nodes m hm
  constructor
  · intro he
    rw [hl.eq_of_id hn hp (he.trans hid.symm)]
    exact ⟨hcluster, hname⟩
  · rintro ⟨hsame, hsameName⟩
    rw [hl.eq_of_name hn hp (hsame.trans hcluster.symm) (hsameName.trans hname.symm)]
    exact hid

end Db.Knows

/-- Tables of one size know each other. -/
theorem Db.Knows.symm (h : db.Knows db') (hl : db.Linked) (hl' : db'.Linked) (hclusters : db.clusters = db'.clusters)
    (hlength : db.nodes.length = db'.nodes.length) : db'.Knows db where
  clusters := hclusters ▸ List.Subset.refl _
  nodes n hn := by
    obtain ⟨m, hm, hid⟩ := hl'.exists_id (hl.id_pos hn) (hlength ▸ hl.node_id_le hn)
    obtain ⟨p, hp, hpid, hcluster, hname⟩ := h.nodes m hm
    obtain rfl := hl.eq_of_id hp hn (hpid.trans hid)
    exact ⟨m, hm, hid, hcluster.symm, hname.symm⟩

theorem Db.Agrees.symm (h : db.Agrees db') : db'.Agrees db := by
  intro n hn m hm
  rw [eq_comm, h m hm n hn, eq_comm, eq_comm (a := m.name)]

theorem Tracks.put_knows (h : Tracks target db state) (ht : target.Linked) (hn : n ∈ target.nodes)
    (hid : n.id ≤ db.nodes.length + 1) : (db.put n).Knows db := by
  by_cases hle : n.id ≤ db.nodes.length
  · obtain ⟨m, hm, hmid, hkeep⟩ := h.replaced ht hn hle
    rw [put_known hm hmid]
    exact .mapNodes (save_keeps h.linked hm hkeep)
  · rw [put_new]
    · exact .addNode db n
    · intro m hm he
      have hmle := h.linked.node_id_le hm
      omega

theorem Tracks.put_rooted (h : Tracks target db state) (ht : target.Linked) (hn : n ∈ target.nodes)
    (hle : n.id ≤ db.nodes.length) (hr : db.Rooted) : (db.put n).Rooted := by
  obtain ⟨m, hm, hmid, hkeep⟩ := h.replaced ht hn hle
  rw [put_known hm hmid]
  exact hr.save h.linked hm hkeep

/-! ## All rows -/

theorem InTurn.mono {stored stored' : Nat} (h : InTurn stored rows) (hle : stored ≤ stored') : InTurn stored' rows := by
  induction rows generalizing stored stored' with
  | nil => trivial
  | cons n rows ih =>
    obtain ⟨hid, hparent, hrest⟩ := h
    exact ⟨by omega, fun id he => (hparent id he).trans hle, ih hrest (by omega)⟩

theorem Tracks.puts (h : Tracks target db state) (ht : target.Linked) (hrows : ∀ n ∈ rows, n ∈ target.nodes)
    (hturn : InTurn db.nodes.length rows) :
    ∃ state', (rows.map Node.update).foldlM Page.mergeNode state = some state' ∧ Tracks target (rows.foldl Db.put db) state' ∧
      (rows.foldl Db.put db).Knows db ∧ ((∀ n ∈ rows, n.id ≤ db.nodes.length) →
        (rows.foldl Db.put db).nodes.length = db.nodes.length ∧ (db.Rooted → (rows.foldl Db.put db).Rooted)) := by
  induction rows generalizing db state with
  | nil => exact ⟨state, rfl, h, .refl db, fun _ => ⟨rfl, id⟩⟩
  | cons n rows ih =>
    obtain ⟨hid, hparent, hrest⟩ := hturn
    have hn := hrows n List.mem_cons_self
    obtain ⟨state₁, hmerge, htracks, hlength⟩ := h.put ht hn hid hparent
    rw [← hlength] at hrest
    obtain ⟨state', hmerges, htracks', hknows, hrooted⟩ := ih htracks (fun m hm => hrows m (List.mem_cons_of_mem _ hm)) hrest
    refine ⟨state', ?_, htracks', hknows.trans (h.put_knows ht hn hid), ?_⟩
    · rw [List.map_cons, List.foldlM_cons, hmerge, Option.bind_eq_bind, Option.bind_some, hmerges]
    · intro hle
      have hnle := hle n List.mem_cons_self
      obtain ⟨hsame, hrest⟩ := hrooted (fun m hm => (hle m (List.mem_cons_of_mem _ hm)).trans (by omega))
      exact ⟨hsame.trans (by omega), fun hr => hrest (h.put_rooted ht hn hnle hr)⟩

/-! ## Clusters -/

theorem foldl_mergeCluster_known {clusters : List Cluster} (h : db.Linked) (hknown : clusters ⊆ db.clusters) :
    clusters.foldl Page.mergeCluster db.page = db.page := by
  induction clusters with
  | nil => rfl
  | cons c clusters ih =>
    obtain ⟨pc, hpc, -, -⟩ := (page_shows h).clusterById (hknown List.mem_cons_self)
    rw [List.foldl_cons, Page.mergeCluster, hpc]
    exact ih (fun d hd => hknown (List.mem_cons_of_mem _ hd))

theorem foldl_putCluster_known {clusters : List Cluster} (hknown : clusters ⊆ db.clusters) :
    clusters.foldl Db.putCluster db = db := by
  induction clusters with
  | nil => rfl
  | cons c clusters ih =>
    have hany : db.clusters.any (fun d => d.id = c.id) := List.any_eq_true.mpr ⟨c, hknown List.mem_cons_self, by simp⟩
    rw [List.foldl_cons, Db.putCluster, if_pos hany]
    exact ih (fun d hd => hknown (List.mem_cons_of_mem _ hd))

theorem putCluster_new (h : db.Linked) (netloc : List Char) :
    db.putCluster (db.newCluster netloc) = db.addCluster (db.newCluster netloc) := by
  apply if_neg
  intro hany
  obtain ⟨d, hd, he⟩ := List.any_eq_true.mp hany
  have hle := h.cluster_id_le hd
  rw [of_decide_eq_true he] at hle
  simp only [Db.newCluster] at hle
  omega

theorem outline_newCluster (h : db.Linked) (netloc : List Char) :
    db.outline (db.newCluster netloc) = (db.newCluster netloc, [], none) := by
  have hnodes : db.nodesOf (db.newCluster netloc).id = [] := by
    apply List.filter_eq_nil_iff.mpr
    intro n hn he
    exact newCluster_fresh h netloc hn (of_decide_eq_true he)
  have hroot : db.node? (db.newCluster netloc).id ROOT_NODE = none := by
    apply List.find?_eq_none.mpr
    intro n hn he
    exact newCluster_fresh h netloc hn (of_decide_eq_true he).1
  rw [Db.outline, hnodes, hroot]
  rfl

/-- A cluster without nodes has nothing to measure. -/
theorem mergeCluster_new (h : db.Linked) (netloc : List Char) :
    db.page.mergeCluster (db.newCluster netloc) = (db.addCluster (db.newCluster netloc)).page := by
  have hnone : db.page.clusterById (db.newCluster netloc).id = none := by
    apply List.find?_eq_none.mpr
    intro d hd he
    obtain ⟨c, hc, rfl⟩ := List.mem_map.mp hd
    have hle := h.cluster_id_le hc
    have hid : c.id = db.clusters.length + 1 := of_decide_eq_true he
    omega
  have hclusters : (db.addCluster (db.newCluster netloc)).page.clusters =
      db.page.clusters ++ [⟨(db.newCluster netloc).id, netloc, 0, 0, [], none⟩] := by
    have houtline : (db.addCluster (db.newCluster netloc)).outline (db.newCluster netloc) = (db.newCluster netloc, [], none) :=
      outline_newCluster h netloc
    rw [page_clusters, page_clusters, Db.addCluster, List.map_append, List.map_cons, List.map_nil, ← Db.addCluster, houtline]
    rfl
  rw [Page.mergeCluster, hnone]
  exact congrArg (fun clusters => (⟨clusters, db.page.nodes⟩ : Page)) hclusters.symm

/-! ## An update -/

theorem puts_clusters (rows : List Node) (db : Db) : (rows.foldl Db.put db).clusters = db.clusters := by
  induction rows generalizing db with
  | nil => rfl
  | cons n rows ih =>
    rw [List.foldl_cons, ih, Db.put]
    split
    · rfl
    · rfl

theorem Update.log_keys (update : Update) : update.log.map Prod.fst = update.rows.map (·.id) := by
  rw [Update.log, List.map_map]
  rfl

theorem Update.map_rows (update : Update) : update.rows.map Node.update = update.nodes := by
  rw [Update.rows, List.map_map]
  exact List.map_id'' (fun _ => rfl) _

variable {update : Update}

/-- Once the clusters of an update are there, its rows bring the page to where the
tables are with the rows of the update. -/
theorem Tracks.merge {stored : Db} (hclusters : update.clusters.foldl Db.putCluster db = stored)
    (h : Tracks target stored (update.clusters.foldl Page.mergeCluster db.page, false)) (ht : target.Linked)
    (hrows : ∀ n ∈ update.rows, n ∈ target.nodes) (hturn : InTurn stored.nodes.length update.rows)
    (hrooted : (db.overwrite update).Linked → (db.overwrite update).Rooted) :
    db.page.merge update = some (db.overwrite update).page ∧ (db.overwrite update).Linked := by
  obtain ⟨⟨page, structural⟩, hmerge, htracks, -⟩ := h.puts ht hrows hturn
  rw [Update.map_rows] at hmerge
  have hlinked := htracks.linked
  rw [← hclusters] at htracks hlinked
  refine ⟨?_, hlinked⟩
  rw [Page.merge, hmerge, Option.bind_eq_bind, Option.bind_some]
  cases structural with
  | true => exact htracks.shows.rebuildStructure hlinked (hrooted hlinked)
  | false => exact congrArg some (htracks.page rfl)

namespace Announces

/-- The last update of a page, which may show some of what the update tells. -/
theorem last (h : Announces db update db') (hdb : db.Linked) {page : Db} (hl : page.Linked) (hbefore : page.Knows db)
    (hafter : db'.Knows page) (hclusters : page.clusters = db.clusters ∨ page.clusters = db'.clusters)
    (hothers : ∀ id, id ∉ update.rows.map (·.id) → page.nodeById id = db'.nodeById id) :
    page.page.merge update = some db'.page := by
  have hturn := h.inTurn.mono (hbefore.length_le hl hdb)
  have hagrees := (hafter.agrees h.linked).symm
  -- the clusters of the update are there or are created now
  have hstored : ∃ stored, update.clusters.foldl Db.putCluster page = stored ∧ stored.nodes = page.nodes ∧
      stored.clusters = db'.clusters ∧ stored.Linked ∧ update.clusters.foldl Page.mergeCluster page.page = stored.page := by
    have hknown (hsame : page.clusters = db'.clusters) (hsub : update.clusters ⊆ db'.clusters) : ∃ stored,
        update.clusters.foldl Db.putCluster page = stored ∧ stored.nodes = page.nodes ∧
          stored.clusters = db'.clusters ∧ stored.Linked ∧ update.clusters.foldl Page.mergeCluster page.page = stored.page := by
      rw [← hsame] at hsub
      exact ⟨page, foldl_putCluster_known hsub, rfl, hsame, hl, foldl_mergeCluster_known hl hsub⟩
    obtain ⟨hnone, hall⟩ | ⟨netloc, hfresh, hnew, hall⟩ := h.clusters
    · apply hknown
      · rw [hall] at hclusters
        rw [hall]
        exact hclusters.elim id id
      · rw [hnone]
        exact List.nil_subset _
    · obtain hold | hsame := hclusters
      · have hcluster : db.newCluster netloc = page.newCluster netloc := by rw [Db.newCluster, Db.newCluster, hold]
        rw [Db.cluster?, ← hold] at hfresh
        rw [hnew, hcluster, List.foldl_cons, List.foldl_nil, List.foldl_cons, List.foldl_nil, putCluster_new hl,
          mergeCluster_new hl]
        refine ⟨_, rfl, rfl, ?_, hl.addCluster hfresh, rfl⟩
        rw [hall, ← hold, hcluster]
        rfl
      · apply hknown hsame
        rw [hnew, hall]
        exact List.subset_append_right _ _
  obtain ⟨stored, hstored, hnodes, hall, hlinked, hpage⟩ := hstored
  have htracks : Tracks db' stored (update.clusters.foldl Page.mergeCluster page.page, false) := by
    rw [hpage]
    refine ⟨hlinked, ?_, hall ▸ List.Subset.refl _, page_shows hlinked, fun _ => rfl⟩
    rw [Db.Agrees, hnodes]
    exact hagrees
  have hend (hlinked : (page.overwrite update).Linked) : page.overwrite update = db' := by
    apply hlinked.ext h.linked
    · rw [Db.overwrite, hstored, puts_clusters, hall]
    · rw [nodeById_overwrite]
      funext id
      by_cases hid : id ∈ update.log.map Prod.fst
      · obtain ⟨n, hn, hreplay⟩ := replay_mem page.nodeById hid
        obtain ⟨m, hm, he⟩ := List.mem_map.mp hn
        obtain ⟨rfl, rfl⟩ := Prod.mk.inj he
        rw [hreplay, h.linked.nodeById (h.rows m hm)]
      · rw [replay_other hid]
        rw [Update.log_keys] at hid
        exact hothers id hid
  obtain ⟨hmerge, hlinked⟩ := Tracks.merge hstored htracks h.linked h.rows (hnodes ▸ hturn)
    (fun hlinked => hend hlinked ▸ h.rooted)
  rw [hmerge, hend hlinked]

end Announces

end

end Linksurf.Visualization
