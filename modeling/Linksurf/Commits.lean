import Linksurf.Redelivery

/-!
# Tables in the middle of an event

`send_event` commits up to four times before it broadcasts, and `get_graph` may
read in between. What it reads lacks rows the update is going to tell of, and
nothing else, so a page loaded from it is brought up to date by the update.
-/
namespace Linksurf.Visualization

open Dicts (Dict)
open Replay
open UrlParse

/-- The first commit of `place`: the node is stored, its descendants are not moved yet. -/
def stored (engine : Engine) (db : Db) (clusterId : Nat) (root : Node) (node : Option Node) (name : Name)
    (status : NodeStatus) : Db :=
  let parentId := ((db.parentOf engine clusterId name).getD root).id
  match node with
  | none => db.addNode (db.newNode name clusterId status (some parentId))
  | some node => db.save ({ node with parentId := some parentId }.setStatus status)

/-- The tables after each commit of `send_event`, in order. -/
def commits (valid : List Char → Bool) (engine : Engine) (db : Db) (event : CrawlEvent) : Option (List Db) := do
  let parts ← urlsplit valid event.url
  let name ← nodeName valid event.url
  let (cluster, ensured, created) := db.ensureCluster parts.netloc
  let (root, rooted, updates) := ensured.ensureRoot cluster.id
  let node := if name = ROOT_NODE then some root else rooted.node? cluster.id name
  let placed (node : Option Node) : List Db :=
    [stored engine rooted cluster.id root node name event.status,
      (place engine rooted cluster.id root node name event.status updates).1]
  let handled := match node with
    | some node =>
      if name = ROOT_NODE ∨ node.parentId ≠ none then
        if node.status = .succeeded then [] else [(updateStatus rooted node event.status updates).1]
      else placed (some node)
    | none => placed none
  return (if created = [] then [] else [ensured]) ++ (if updates.entries = [] then [] else [rooted]) ++ handled

def Request.commits (valid : List Char → Bool) (db : Db) (request : Request) : List Db :=
  (Visualization.commits valid request.engine db request.event).getD []

/-- Tables in the middle of an event: what they lack the update tells. -/
structure Halfway (db : Db) (update : Update) (db' mid : Db) : Prop where
  linked : mid.Linked
  rooted : mid.Rooted
  before : mid.Knows db
  after : db'.Knows mid
  clusters : mid.clusters = db.clusters ∨ mid.clusters = db'.clusters
  others : ∀ id, id ∉ update.rows.map (·.id) → mid.nodeById id = db.nodeById id

/-- The outcome of an event, with its commits. A cluster is committed before it has
a root. -/
inductive Told (db : Db) : Db × Option Update → List Db → Prop
  | unchanged : Told db (db, none) []
  | changed {update : Update} {db' : Db} {commits : List Db} (hannounces : Announces db update db')
      (hlast : commits.getLast? = some db') (hcommits : ∀ mid ∈ commits,
        (∃ netloc, mid = db.addCluster (db.newCluster netloc)) ∨ Halfway db update db' mid) :
      Told db (db', some update) commits

section

variable {db db' : Db} {n m root : Node} {c : Cluster} {netloc : List Char} {name : Name} {status : NodeStatus}

/-! ## What an event announces -/

theorem announces_status (h : db.Linked) (hr : db.Rooted) (hn : n ∈ db.nodes) (status : NodeStatus) :
    Announces db ⟨[], [{ n with status }.update]⟩ (db.save { n with status }) where
  linked := h.setStatus hn status
  rooted := hr.setStatus h hn status
  knows := .mapNodes (save_keeps h hn ⟨rfl, rfl, rfl⟩)
  clusters := .inl ⟨rfl, rfl⟩
  rows m hm := by
    rw [List.mem_singleton.mp hm]
    exact List.mem_map.mpr ⟨n, hn, if_pos rfl⟩
  inTurn := by
    refine ⟨(h.node_id_le hn).trans (Nat.le_succ _), ?_, trivial⟩
    intro id hparent
    obtain ⟨p, hp, rfl⟩ := h.parent_exists hn id hparent
    exact h.node_id_le hp
  others id hid := nodeById_save db _ (fun he => hid (List.mem_singleton.mpr he))

theorem mem_inserted (hm : m ∈ db.nodes) : db.adopt n m ∈ (db.inserted n).nodes :=
  List.mem_append_left _ (List.mem_map_of_mem hm)

/-- Rows that are not adopted stay as they are. -/
theorem nodeById_inserted (h : db.Linked) (hlinked : (db.addNode n).Linked) {id : Nat} (hne : id ≠ n.id)
    (hadopt : ∀ m ∈ db.nodes, m.id = id → ¬ db.adopts n.clusterId n.name n.id m) :
    (db.inserted n).nodeById id = db.nodeById id := by
  have hl := h.inserted hlinked
  cases hnode : db.nodeById id with
  | some m =>
    obtain ⟨hm, rfl⟩ := mem_of_nodeById hnode
    have hmem := mem_inserted (n := n) hm
    rw [Db.adopt, if_neg (hadopt m hm rfl)] at hmem
    exact hl.nodeById hmem
  | none =>
    cases hnode' : (db.inserted n).nodeById id with
    | none => rfl
    | some m =>
      obtain ⟨hm, rfl⟩ := mem_of_nodeById hnode'
      obtain hm | hm := List.mem_append.mp hm
      · obtain ⟨p, hp, rfl⟩ := List.mem_map.mp hm
        rw [(adopt_keeps db n p).1, h.nodeById hp] at hnode
        cases hnode
      · exact absurd (congrArg Node.id (List.mem_singleton.mp hm)) hne

theorem inTurn_known {rows : List Node} {stored : Nat} (hid : ∀ n ∈ rows, n.id ≤ stored)
    (hparent : ∀ n ∈ rows, ∀ id, n.parentId = some id → id ≤ stored) : InTurn stored rows := by
  induction rows with
  | nil => trivial
  | cons n rows ih =>
    have hle := hid n List.mem_cons_self
    refine ⟨hle.trans (Nat.le_succ _), hparent n List.mem_cons_self, ?_⟩
    rw [max_eq_left hle]
    exact ih (fun m hm => hid m (List.mem_cons_of_mem _ hm)) (fun m hm => hparent m (List.mem_cons_of_mem _ hm))

theorem announces_created (h : db.Linked) (hr : db.Rooted) {p : Node} (hp : Nearest db c.id name p)
    (hn : n = db.newNode name c.id status (some p.id)) (hlinked : (db.addNode n).Linked) {moved : List Node}
    (hmoved : moved.Perm (db.nodes.filter (db.adopts n.clusterId n.name n.id))) :
    Announces db ⟨[], n.update :: moved.map (fun d => { d with parentId := some n.id }.update)⟩ (db.inserted n) := by
  have hid : n.id = db.nodes.length + 1 := by rw [hn]; rfl
  have hmem : ∀ d ∈ moved, d ∈ db.nodes ∧ db.adopts n.clusterId n.name n.id d = true :=
    fun d hd => List.mem_filter.mp (hmoved.mem_iff.mp hd)
  have hrows : Update.rows ⟨[], n.update :: moved.map (fun d => { d with parentId := some n.id }.update)⟩ =
      n :: moved.map (fun d => { d with parentId := some n.id }) := by
    rw [Update.rows, List.map_cons, List.map_map]
    rfl
  constructor
  · exact h.inserted hlinked
  · exact hr.inserted hlinked
  · exact ⟨fun _ hc => hc, fun m hm => ⟨db.adopt n m, mem_inserted hm, adopt_keeps db n m⟩⟩
  · exact .inl ⟨rfl, rfl⟩
  · intro m hm
    rw [hrows] at hm
    obtain rfl | hm := List.mem_cons.mp hm
    · exact List.mem_append_right _ (List.mem_singleton_self _)
    · obtain ⟨d, hd, rfl⟩ := List.mem_map.mp hm
      obtain ⟨hdmem, hadopts⟩ := hmem d hd
      have hadopt := mem_inserted (n := n) hdmem
      rwa [Db.adopt, if_pos hadopts] at hadopt
  · rw [hrows]
    refine ⟨hid.le, ?_, inTurn_known ?_ ?_⟩
    · intro id hparent
      rw [hn] at hparent
      rw [← Option.some.inj hparent]
      exact h.node_id_le hp.mem
    · intro m hm
      obtain ⟨d, hd, rfl⟩ := List.mem_map.mp hm
      have hle := h.node_id_le (hmem d hd).1
      exact le_max_of_le_left hle
    · intro m hm id hparent
      obtain ⟨d, hd, rfl⟩ := List.mem_map.mp hm
      rw [← Option.some.inj hparent]
      exact le_max_right _ _
  · intro id hnot
    rw [hrows, List.map_cons, List.map_map, List.mem_cons, not_or] at hnot
    apply nodeById_inserted h hlinked hnot.1
    rintro m hm rfl hadopts
    exact hnot.2 (List.mem_map.mpr ⟨m, hmoved.mem_iff.mpr (List.mem_filter.mpr ⟨hm, hadopts⟩), rfl⟩)

/-- A new cluster with its root, and what is known of the cluster afterwards. -/
structure Founded (db : Db) (netloc : List Char) (root : Node) : Prop where
  fresh : db.cluster? netloc = none
  id : root.id = db.nodes.length + 1
  cluster : root.clusterId = (db.newCluster netloc).id
  name : root.name = ROOT_NODE
  parent : root.parentId = none

def Db.found (db : Db) (netloc : List Char) (root : Node) : Db := (db.addCluster (db.newCluster netloc)).addNode root

namespace Founded

theorem linked (h : Founded db netloc root) (hl : db.Linked) : (db.found netloc root).Linked := by
  have hnode : (db.addCluster (db.newCluster netloc)).node? root.clusterId root.name = none := by
    apply List.find?_eq_none.mpr
    intro m hm he
    exact newCluster_fresh hl netloc hm ((of_decide_eq_true he).1.trans h.cluster)
  apply (hl.addCluster h.fresh).addNode h.id (List.mem_append_right _ (List.mem_singleton_self _)) h.cluster _ hnode
  · intro _
    exact h.parent
  · intro hname
    exact absurd h.name hname
  · rw [h.name]
    exact List.cons_ne_nil _ _

theorem found_rooted (h : Founded db netloc root) (hl : db.Linked) (hr : db.Rooted) : (db.found netloc root).Rooted :=
  hr.addRoot hl h.name h.cluster

theorem found_knows (db : Db) (netloc : List Char) (root : Node) : (db.found netloc root).Knows db :=
  (Db.Knows.addNode _ _).trans (.addCluster _ _)

theorem others {id : Nat} (hne : id ≠ root.id) :
    (db.found netloc root).nodeById id = db.nodeById id := by
  have hne' : root.id ≠ id := fun he => hne he.symm
  simp [Db.nodeById, Db.found, Db.addNode, Db.addCluster, List.find?_append, hne']

theorem length (db : Db) (netloc : List Char) (root : Node) : (db.found netloc root).nodes.length = db.nodes.length + 1 := by
  simp [Db.found, Db.addNode, Db.addCluster]

theorem mem_found (db : Db) (netloc : List Char) (root : Node) : root ∈ (db.found netloc root).nodes :=
  List.mem_append_right _ (List.mem_singleton_self _)

theorem inTurn (h : Founded db netloc root) {rows : List Node} (hrows : InTurn (db.nodes.length + 1) rows) :
    InTurn db.nodes.length (root :: rows) := by
  refine ⟨h.id.le, ?_, ?_⟩
  · intro id hparent
    rw [h.parent] at hparent
    cases hparent
  · rwa [h.id, max_eq_right (Nat.le_succ _)]

theorem announces (h : Founded db netloc root) (hl : db.Linked) (hr : db.Rooted) :
    Announces db ⟨[db.newCluster netloc], [root.update]⟩ (db.found netloc root) where
  linked := h.linked hl
  rooted := h.found_rooted hl hr
  knows := found_knows db netloc root
  clusters := .inr ⟨netloc, h.fresh, rfl, rfl⟩
  rows _ hn := List.mem_singleton.mp hn ▸ mem_found db netloc root
  inTurn := h.inTurn trivial
  others _ hid := Founded.others (fun he => hid (List.mem_singleton.mpr he))

/-- A new node in a new cluster adopts nothing. -/
theorem moved_nil (h : Founded db netloc root) (hl : db.Linked) (hn : n.clusterId = (db.newCluster netloc).id) {moved : List Node}
    (hmoved : moved.Perm ((db.found netloc root).nodes.filter ((db.found netloc root).adopts n.clusterId n.name n.id))) :
    moved = [] := by
  apply List.eq_nil_iff_forall_not_mem.mpr
  intro m hm
  obtain ⟨hm, hadopts⟩ := List.mem_filter.mp (hmoved.mem_iff.mp hm)
  obtain ⟨hcluster, hname, -⟩ := adopts_fits (h.linked hl) hm hadopts
  obtain hm | hm := List.mem_append.mp hm
  · exact newCluster_fresh hl netloc hm (hcluster.trans hn)
  · exact hname (List.mem_singleton.mp hm ▸ h.name)

theorem announces_created (h : Founded db netloc root) (hl : db.Linked) (hr : db.Rooted) {p : Node}
    (hp : Nearest (db.found netloc root) (db.newCluster netloc).id name p)
    (hn : n = (db.found netloc root).newNode name (db.newCluster netloc).id status (some p.id))
    (hlinked : ((db.found netloc root).addNode n).Linked) {moved : List Node}
    (hmoved : moved.Perm ((db.found netloc root).nodes.filter ((db.found netloc root).adopts n.clusterId n.name n.id))) :
    Announces db ⟨[db.newCluster netloc], [root.update, n.update]⟩ ((db.found netloc root).inserted n) := by
  have hfound := h.linked hl
  have hcluster : n.clusterId = (db.newCluster netloc).id := by rw [hn]; rfl
  have hnone := h.moved_nil hl hcluster hmoved
  subst hnone
  have hcreated := Visualization.announces_created hfound (h.found_rooted hl hr) hp hn hlinked hmoved
  have hadopts : ∀ m ∈ (db.found netloc root).nodes, ¬ (db.found netloc root).adopts n.clusterId n.name n.id m := by
    intro m hm hadopts
    exact List.not_mem_nil (hmoved.mem_iff.mpr (List.mem_filter.mpr ⟨hm, hadopts⟩))
  constructor
  · exact hcreated.linked
  · exact hcreated.rooted
  · exact hcreated.knows.trans (found_knows db netloc root)
  · exact .inr ⟨netloc, h.fresh, rfl, rfl⟩
  · intro m hm
    obtain rfl | hm := List.mem_cons.mp hm
    · have hmem := mem_inserted (n := n) (mem_found db netloc root)
      rwa [Db.adopt, if_neg (hadopts root (mem_found db netloc root))] at hmem
    · exact hcreated.rows m hm
  · have hturn := hcreated.inTurn
    rw [length] at hturn
    exact h.inTurn hturn
  · intro id hid
    obtain ⟨hroot, hnode⟩ := not_or.mp (fun he => hid (List.mem_cons.mpr he))
    have hne : id ≠ root.id := hroot
    rw [hcreated.others id hnode, Founded.others hne]

end Founded

/-! ## What an event commits -/

theorem Announces.halfway {update : Update} (h : Announces db update db') : Halfway db update db' db' where
  linked := h.linked
  rooted := h.rooted
  before := h.knows
  after := .refl db'
  clusters := .inr rfl
  others := h.others

/-- The status of a node in its place. -/
theorem told_status (h : db.Linked) (hr : db.Rooted) (hn : n ∈ db.nodes) (status : NodeStatus) :
    Told db ((updateStatus db n status .empty).1, broadcast [] ((updateStatus db n status .empty).2.entries.map Prod.snd))
      (if n.status = .succeeded then [] else [(updateStatus db n status .empty).1]) := by
  unfold updateStatus
  split
  · exact .unchanged
  · have hannounces := announces_status h hr hn status
    refine .changed hannounces rfl ?_
    intro mid hmid
    rw [List.mem_singleton.mp hmid]
    exact .inr hannounces.halfway

/-- The status of the root of a new cluster. -/
theorem told_root (h : Founded db netloc root) (hl : db.Linked) (hr : db.Rooted) (hpending : root.status ≠ .succeeded)
    (status : NodeStatus) :
    Told db ((updateStatus (db.found netloc root) root status (Dict.empty.set root.id root.update)).1,
        broadcast [db.newCluster netloc] ((updateStatus (db.found netloc root) root status
          (Dict.empty.set root.id root.update)).2.entries.map Prod.snd))
      [db.addCluster (db.newCluster netloc), db.found netloc root,
        (updateStatus (db.found netloc root) root status (Dict.empty.set root.id root.update)).1] := by
  have hstatus : Founded db netloc { root with status } := ⟨h.fresh, h.id, h.cluster, h.name, h.parent⟩
  have hannounces := hstatus.announces hl hr
  have hsaved : (db.found netloc root).save { root with status } = db.found netloc { root with status } := by
    apply save_addNode
    intro m hm he
    have hle := hl.node_id_le hm
    have hid := h.id
    omega
  have hentries : ((Dict.empty.set root.id root.update).set root.id ({ root with status } : Node).update).entries.map Prod.snd =
      [({ root with status } : Node).update] := by
    simp [Dict.set, Dict.keys, Dict.empty, Dict.replaceAt]
  rw [updateStatus, if_neg hpending]
  simp only [hsaved, hentries]
  refine .changed hannounces rfl ?_
  intro mid hmid
  simp only [List.mem_cons, List.not_mem_nil, or_false] at hmid
  obtain rfl | rfl | rfl := hmid
  · exact .inl ⟨netloc, rfl⟩
  · refine .inr ⟨h.linked hl, h.found_rooted hl hr, Founded.found_knows db netloc root, ?_, .inr rfl, ?_⟩
    · rw [← hsaved]
      exact .mapNodes (save_keeps (h.linked hl) (Founded.mem_found db netloc root) ⟨rfl, rfl, rfl⟩)
    · intro id hid
      exact Founded.others (fun he => hid (List.mem_singleton.mpr he))
  · exact .inr hannounces.halfway

theorem stored_halfway (hr : db.Rooted) {update : Update} {before : Db} (hbefore : db.Knows before)
    (hclusters : db.clusters = before.clusters ∨
      db.clusters = (db.inserted n).clusters) (hothers : ∀ id, id ∉ update.rows.map (·.id) → db.nodeById id = before.nodeById id)
    (hn : n ∈ update.rows) (hlinked : (db.addNode n).Linked) : Halfway before update (db.inserted n) (db.addNode n) where
  linked := hlinked
  rooted := by
    obtain ⟨c, hc, hcluster⟩ := hlinked.clustered n (List.mem_append_right _ (List.mem_singleton_self n))
    exact hr.addNode hc hcluster.symm
  before := (Db.Knows.addNode db n).trans hbefore
  after := by
    rw [inserted_eq]
    exact .mapNodes (fun m _ => adopt_keeps db n m)
  clusters := hclusters
  others id hid := by
    have hne : n.id ≠ id := fun he => hid (he ▸ List.mem_map_of_mem hn)
    rw [← hothers id hid]
    simp [Db.nodeById, Db.addNode, List.find?_append, hne]

/-- A new node in a cluster that was there. -/
theorem told_created (h : db.Linked) (hr : db.Rooted) {p : Node} (hp : Nearest db c.id name p)
    (hn : n = db.newNode name c.id status (some p.id)) (hlinked : (db.addNode n).Linked) {moved : List Node}
    (hmoved : moved.Perm (db.nodes.filter (db.adopts n.clusterId n.name n.id))) :
    Told db (db.inserted n, broadcast [] (((moved.map (fun m => { m with parentId := some n.id })).foldl
      (fun updates d => updates.set d.id d.update) (Dict.empty.set n.id n.update)).entries.map Prod.snd))
      [db.addNode n, db.inserted n] := by
  have hannounces := announces_created h hr hp hn hlinked hmoved
  have hnodup : ((Dict.empty : Dict Nat NodeUpdate).keys ++ n.id :: moved.map (·.id)).Nodup := by
    have hid : n.id = db.nodes.length + 1 := by rw [hn]; rfl
    have hids : (moved.map (·.id)).Perm ((db.nodes.filter (db.adopts n.clusterId n.name n.id)).map (·.id)) :=
      hmoved.map _
    refine List.nodup_cons.mpr ⟨?_, hids.nodup_iff.mpr (h.nodes_nodup.sublist (List.filter_sublist.map _))⟩
    intro hin
    obtain ⟨m, hm, he⟩ := List.mem_map.mp (hids.mem_iff.mp hin)
    have hle := h.node_id_le (List.mem_filter.mp hm).1
    omega
  rw [entries_created hnodup]
  refine .changed hannounces rfl ?_
  intro mid hmid
  simp only [List.mem_cons, List.not_mem_nil, or_false] at hmid
  obtain rfl | rfl := hmid
  · exact .inr (stored_halfway hr (.refl db) (.inl rfl) (fun _ _ => rfl) List.mem_cons_self hlinked)
  · exact .inr hannounces.halfway

/-- A new node in a new cluster. -/
theorem told_founded (h : Founded db netloc root) (hl : db.Linked) (hr : db.Rooted) {p : Node}
    (hp : Nearest (db.found netloc root) (db.newCluster netloc).id name p)
    (hn : n = (db.found netloc root).newNode name (db.newCluster netloc).id status (some p.id))
    (hlinked : ((db.found netloc root).addNode n).Linked) {moved : List Node}
    (hmoved : moved.Perm ((db.found netloc root).nodes.filter ((db.found netloc root).adopts n.clusterId n.name n.id))) :
    Told db ((db.found netloc root).inserted n, broadcast [db.newCluster netloc] (((moved.map
        (fun m => { m with parentId := some n.id })).foldl (fun updates d => updates.set d.id d.update)
        ((Dict.empty.set root.id root.update).set n.id n.update)).entries.map Prod.snd))
      [db.addCluster (db.newCluster netloc), db.found netloc root, (db.found netloc root).addNode n,
        (db.found netloc root).inserted n] := by
  have hannounces := h.announces_created hl hr hp hn hlinked hmoved
  have hnid : n.id = db.nodes.length + 1 + 1 := by
    rw [hn, ← Founded.length db netloc root]
    rfl
  have hnone := h.moved_nil hl (by rw [hn]; rfl) hmoved
  subst hnone
  have hkeys : (Dict.empty.set root.id root.update : Dict Nat NodeUpdate).keys = [root.id] := by
    rw [Dict.keys_set]
    rfl
  have hnodup : ((Dict.empty.set root.id root.update : Dict Nat NodeUpdate).keys ++ n.id :: ([] : List Node).map (·.id)).Nodup := by
    have hid := h.id
    have hne : root.id ≠ n.id := by omega
    rw [hkeys]
    simpa using hne
  rw [entries_created hnodup]
  refine .changed hannounces rfl ?_
  have hothers : ∀ id, id ∉ ([root, n] : List Node).map (·.id) → (db.found netloc root).nodeById id = db.nodeById id :=
    fun id hid => Founded.others (fun he => hid (List.mem_cons.mpr (.inl he)))
  intro mid hmid
  simp only [List.mem_cons, List.not_mem_nil, or_false] at hmid
  obtain rfl | rfl | rfl | rfl := hmid
  · exact .inl ⟨netloc, rfl⟩
  · refine .inr ⟨h.linked hl, h.found_rooted hl hr, Founded.found_knows db netloc root, ?_, .inr rfl, hothers⟩
    exact ⟨fun _ hc => hc, fun m hm => ⟨_, mem_inserted hm, adopt_keeps _ n m⟩⟩
  · exact .inr (stored_halfway (h.found_rooted hl hr) (Founded.found_knows db netloc root) (.inr rfl)
      hothers (List.mem_cons_of_mem _ List.mem_cons_self) hlinked)
  · exact .inr hannounces.halfway

/-- The root of a cluster that is there. -/
theorem ensureRoot_known (h : db.Linked) (hr : db.Rooted) (hc : c ∈ db.clusters) :
    ∃ root ∈ db.nodes, root.clusterId = c.id ∧ root.name = ROOT_NODE ∧ db.ensureRoot c.id = (root, db, .empty) := by
  obtain ⟨root, hroot, hcluster, hname⟩ := hr.root c hc
  have hnode : db.node? c.id ROOT_NODE = some root := by
    rw [← hcluster, ← hname]
    exact Db.node?_of_mem h hroot
  refine ⟨root, hroot, hcluster, hname, ?_⟩
  rw [Db.ensureRoot, hnode]

/-- The root of a new cluster. -/
theorem ensureRoot_new (h : db.Linked) (hfresh : db.cluster? netloc = none) :
    ∃ root, Founded db netloc root ∧ root.status ≠ .succeeded ∧
      (db.addCluster (db.newCluster netloc)).ensureRoot (db.newCluster netloc).id =
        (root, db.found netloc root, Dict.empty.set root.id root.update) := by
  have hnode : (db.addCluster (db.newCluster netloc)).node? (db.newCluster netloc).id ROOT_NODE = none := by
    apply List.find?_eq_none.mpr
    intro n hn he
    exact newCluster_fresh h netloc hn (of_decide_eq_true he).1
  refine ⟨(db.addCluster (db.newCluster netloc)).newNode ROOT_NODE (db.newCluster netloc).id .pending none,
    ⟨hfresh, rfl, rfl, rfl, rfl⟩, NodeStatus.noConfusion, ?_⟩
  rw [Db.ensureRoot, hnode]
  rfl

/-- Everything an event commits and broadcasts. -/
theorem handle_told (h : db.Linked) (hr : db.Rooted) (valid : List Char → Bool) (request : Request) :
    Told db (request.handle valid db) (request.commits valid db) := by
  obtain ⟨engine, event⟩ := request
  unfold Request.handle Request.commits sendEvent commits
  dsimp only
  cases hparts : urlsplit valid event.url with
  | none => exact .unchanged
  | some parts =>
    cases hname : nodeName valid event.url with
    | none => exact .unchanged
    | some name =>
      dsimp only [Option.bind_eq_bind, Option.bind_some]
      unfold Db.ensureCluster
      cases hfind : db.cluster? parts.netloc with
      | some c =>
        obtain ⟨hc, -⟩ := mem_of_cluster? hfind
        obtain ⟨root, hmem, hcluster, hrootname, hensure⟩ := ensureRoot_known h hr hc
        simp only [hensure, if_true, List.nil_append, Option.pure_def, Option.getD_some]
        have hempty : (Dict.empty : Dict Nat NodeUpdate).entries = [] := rfl
        simp only [hempty, if_true, List.nil_append]
        by_cases hroot : name = ROOT_NODE
        · simp only [hroot, true_or, if_true]
          exact told_status h hr hmem event.status
        · simp only [hroot, false_or, if_false]
          cases hnode : db.node? c.id name with
          | some n =>
            obtain ⟨hn, hncluster, hnname⟩ := mem_of_node? hnode
            obtain ⟨pid, hpid, -⟩ := h.parent n hn (hnname ▸ hroot)
            simp only [hpid, ne_eq, reduceCtorEq, not_false_eq_true, if_true]
            exact told_status h hr hn event.status
          | none =>
            obtain ⟨p, hp, hnearest⟩ := parentOf_nearest engine hmem hcluster hrootname name
            have hlinked := hnearest.addNode h hc (nodeName_ne_nil hname) hroot hnode event.status
            obtain ⟨moved, hmoved, hplace⟩ := place_none h root hp rfl hlinked .empty
            simp only [hplace, stored, hp, Option.getD_some]
            exact told_created h hr hnearest rfl hlinked hmoved
      | none =>
        obtain ⟨root, hfounded, hpending, hensure⟩ := ensureRoot_new h hfind
        simp only [hensure, List.cons_ne_nil, if_false, Option.pure_def, Option.getD_some]
        have hentries : (Dict.empty.set root.id root.update : Dict Nat NodeUpdate).entries ≠ [] := by
          simp [Dict.set, Dict.keys, Dict.empty]
        simp only [hentries, if_false]
        have hl := hfounded.linked h
        by_cases hroot : name = ROOT_NODE
        · simp only [hroot, true_or, if_true, hpending, if_false]
          exact told_root hfounded h hr hpending event.status
        · simp only [hroot, false_or, if_false]
          have hnode : (db.found parts.netloc root).node? (db.newCluster parts.netloc).id name = none := by
            apply List.find?_eq_none.mpr
            intro m hm he
            obtain ⟨hmcluster, hmname⟩ := of_decide_eq_true he
            obtain hm | hm := List.mem_append.mp hm
            · exact newCluster_fresh h parts.netloc hm hmcluster
            · exact hroot (hmname.symm.trans (List.mem_singleton.mp hm ▸ hfounded.name))
          obtain ⟨p, hp, hnearest⟩ := parentOf_nearest engine (Founded.mem_found db parts.netloc root) hfounded.cluster
            hfounded.name name
          have hlinked := hnearest.addNode hl (List.mem_append_right _ (List.mem_singleton_self _)) (nodeName_ne_nil hname)
            hroot hnode event.status
          obtain ⟨moved, hmoved, hplace⟩ := place_none hl root hp rfl hlinked (Dict.empty.set root.id root.update)
          simp only [hnode, hplace, stored, hp, Option.getD_some]
          exact told_founded hfounded h hr hnearest rfl hlinked hmoved

theorem Told.of_mem {result : Db × Option Update} {commits : List Db} {mid : Db} (h : Told db result commits)
    (hmid : mid ∈ commits) : ∃ update, result.2 = some update ∧ Announces db update result.1 ∧
      ((∃ netloc, mid = db.addCluster (db.newCluster netloc)) ∨ Halfway db update result.1 mid) := by
  cases h with
  | unchanged => cases hmid
  | @changed update _ _ hannounces _ hcommits => exact ⟨update, rfl, hannounces, hcommits mid hmid⟩

/-! ## Replays -/

theorem Announces.table {update : Update} (h : Announces db update db') : db'.nodeById = replay db.nodeById update.log := by
  funext id
  by_cases hid : id ∈ update.log.map Prod.fst
  · obtain ⟨n, hn, hreplay⟩ := replay_mem db.nodeById hid
    obtain ⟨m, hm, he⟩ := List.mem_map.mp hn
    obtain ⟨rfl, rfl⟩ := Prod.mk.inj he
    rw [hreplay, h.linked.nodeById (h.rows m hm)]
  · rw [replay_other hid]
    rw [Update.log_keys] at hid
    exact h.others id hid

theorem handle_announces (h : db.Linked) (hr : db.Rooted) (valid : List Char → Bool) (request : Request) {update : Update}
    (hsent : (request.handle valid db).2 = some update) : Announces db update (request.handle valid db).1 := by
  have htold := handle_told h hr valid request
  generalize request.commits valid db = commits at htold
  generalize request.handle valid db = result at htold hsent ⊢
  cases htold with
  | unchanged => cases hsent
  | changed hannounces => exact Option.some.inj hsent ▸ hannounces

theorem handle_knows (h : db.Linked) (hr : db.Rooted) (valid : List Char → Bool) (request : Request) :
    (request.handle valid db).1.Knows db := by
  have htold := handle_told h hr valid request
  generalize request.commits valid db = commits at htold
  generalize request.handle valid db = result at htold ⊢
  cases htold with
  | unchanged => exact .refl db
  | changed hannounces => exact hannounces.knows

theorem handleAll_cons (valid : List Char → Bool) (db : Db) (request : Request) (requests : List Request) :
    handleAll valid db (request :: requests) = handleAll valid (request.handle valid db).1 requests := rfl

theorem handleAll_knows (h : db.Linked) (hr : db.Rooted) (valid : List Char → Bool) (requests : List Request) :
    (handleAll valid db requests).Knows db := by
  induction requests generalizing db with
  | nil => exact .refl db
  | cons request requests ih =>
    obtain ⟨hl', hr'⟩ := handle_linked h hr valid request
    exact (ih hl' hr').trans (handle_knows h hr valid request)

/-- A cluster that has no nodes is not in the snapshot. -/
theorem getGraph_addCluster (h : db.Linked) (c : Cluster) : getGraph (db.addCluster c) = getGraph db := by
  have hrows : (db.addCluster c).rows = db.rows := by
    unfold Db.rows
    congr 1
    apply List.filterMap_congr
    intro n hn
    obtain ⟨d, hd, hcluster⟩ := h.clustered n hn
    have hfind : (db.clusters.find? (fun c => c.id = n.clusterId)).isSome :=
      List.find?_isSome.mpr ⟨d, hd, decide_eq_true hcluster⟩
    rw [Db.addCluster, List.find?_append, Option.or_of_isSome hfind]
  rw [getGraph, hrows, getGraph]

/-- A snapshot read between two commits or events, and the number of updates broadcast
by then. -/
def ReadBy (valid : List Char → Bool) (requests : List Request) (seen : Nat) (graph : Graph) : Prop :=
  ∃ before after db, requests = before ++ after ∧ (broadcasts valid {} before).length = seen ∧
    (db = handleAll valid {} before ∨ ∃ request ∈ after.head?, db ∈ request.commits valid (handleAll valid {} before)) ∧
    getGraph db = some graph

theorem broadcasts_append (valid : List Char → Bool) (db : Db) (before after : List Request) :
    broadcasts valid db (before ++ after) = broadcasts valid db before ++ broadcasts valid (handleAll valid db before) after := by
  induction before generalizing db with
  | nil => rfl
  | cons request before ih =>
    rw [List.cons_append, broadcasts, ih, broadcasts, List.append_assoc]
    rfl

end

end Linksurf.Visualization
