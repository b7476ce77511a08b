import Linksurf.Dict
import Linksurf.Forest
import Linksurf.NodeNames
import Mathlib.Data.List.Sort

/-!
# The visualization's database

`visualization/main.py`: `send_event` puts the node of a crawl event into the
tree of its cluster, and `get_graph` measures the trees. Events are handled one
at a time. Rows are never deleted, so ids count up from one. What a query leaves
open, the row among several of one length and the order of rows, is the engine's
choice, on every event anew.
-/
namespace Linksurf.Visualization

open Dicts (Dict)
open UrlParse

/-- `CrawlStatus`. -/
inductive NodeStatus where
  | pending | inProgress | skipped | redirected | errored | succeeded
  deriving DecidableEq, Repr

structure Cluster where
  id : Nat
  name : List Char
  deriving DecidableEq

structure Node where
  id : Nat
  name : Name
  status : NodeStatus
  clusterId : Nat
  parentId : Option Nat := none
  deriving DecidableEq

structure Db where
  clusters : List Cluster := []
  nodes : List Node := []

/-- The status of a finished crawl is a text; the empty one counts as none. -/
inductive CrawlEvent where
  | pending (url : List Char)
  | start (url : List Char)
  | finish (url : List Char) (status : Option NodeStatus)

namespace CrawlEvent

def url : CrawlEvent → List Char
  | .pending url | .start url | .finish url _ => url

/-- `STATUS_BY_EVENT`. -/
def statusByEvent : CrawlEvent → Option NodeStatus
  | .pending _ => some .pending
  | .start _ => some .inProgress
  | .finish _ _ => none

def status : CrawlEvent → NodeStatus
  | .finish _ (some status) => status
  | event => event.statusByEvent.getD .pending

end CrawlEvent

/-- The choices of the database engine: `ORDER BY length(name) DESC` with
`first()`, and `all()` without an order. -/
structure Engine where
  first : List Node → Option Node
  all : List Node → List Node
  first_nil : first [] = none
  first_cons : ∀ rows, rows ≠ [] →
    ∃ n, first rows = some n ∧ n ∈ rows ∧ ∀ m ∈ rows, m.name.length ≤ n.name.length
  all_perm : ∀ rows, (all rows).Perm rows

/-- `node_update`. -/
structure NodeUpdate where
  id : Nat
  clusterId : Nat
  parent : Option Nat
  name : Name
  status : NodeStatus
  deriving DecidableEq

def Node.update (n : Node) : NodeUpdate := ⟨n.id, n.clusterId, n.parentId, n.name, n.status⟩

/-- What a browser is sent. -/
structure Update where
  clusters : List Cluster
  nodes : List NodeUpdate
  deriving DecidableEq

/-- `broadcast`, to a browser that is connected. -/
def broadcast (clusters : List Cluster) (nodes : List NodeUpdate) : Option Update :=
  if nodes = [] then none else some ⟨clusters, nodes⟩

namespace Db

def cluster? (db : Db) (name : List Char) : Option Cluster := db.clusters.find? (fun c => c.name = name)

/-- The node of a name in a cluster. -/
def node? (db : Db) (clusterId : Nat) (name : Name) : Option Node :=
  db.nodes.find? (fun n => n.clusterId = clusterId ∧ n.name = name)

def nodeById (db : Db) (id : Nat) : Option Node := db.nodes.find? (fun n => n.id = id)

def newCluster (db : Db) (name : List Char) : Cluster := ⟨db.clusters.length + 1, name⟩

def addCluster (db : Db) (c : Cluster) : Db := { db with clusters := db.clusters ++ [c] }

def newNode (db : Db) (name : Name) (clusterId : Nat) (status : NodeStatus) (parentId : Option Nat) : Node :=
  ⟨db.nodes.length + 1, name, status, clusterId, parentId⟩

def addNode (db : Db) (n : Node) : Db := { db with nodes := db.nodes ++ [n] }

/-- Replace the row of the node. -/
def save (db : Db) (n : Node) : Db := { db with nodes := db.nodes.map (fun m => if m.id = n.id then n else m) }

/-- The cluster of a location, and what had to be created for it. -/
def ensureCluster (db : Db) (netloc : List Char) : Cluster × Db × List Cluster :=
  match db.cluster? netloc with
  | some c => (c, db, [])
  | none => (db.newCluster netloc, db.addCluster (db.newCluster netloc), [db.newCluster netloc])

/-- The root of a cluster, and the update that announces it. -/
def ensureRoot (db : Db) (clusterId : Nat) : Node × Db × Dict Nat NodeUpdate :=
  match db.node? clusterId ROOT_NODE with
  | some root => (root, db, .empty)
  | none =>
    let root := db.newNode ROOT_NODE clusterId .pending none
    (root, db.addNode root, Dict.empty.set root.id root.update)

/-- The nearest ancestor of a name that is stored. -/
def parentOf (engine : Engine) (db : Db) (clusterId : Nat) (name : Name) : Option Node :=
  engine.first (db.nodes.filter (fun n => n.clusterId = clusterId && (ancestorNames name).contains n.name))

/-- The query for the descendants that the node of a name takes over. -/
def adopts (db : Db) (clusterId : Nat) (name : Name) (id : Nat) (n : Node) : Bool :=
  (n.parentId.bind db.nodeById).any (fun currentParent =>
    n.clusterId = clusterId && (prefixOf name).isPrefixOf n.name && n.name ≠ prefixOf name && n.id ≠ id &&
      currentParent.name.length < name.length)

/-- `descendant.parent_id = node.id` for each of them. -/
def reparent (db : Db) (descendants : List Nat) (id : Nat) : Db :=
  { db with nodes := db.nodes.map (fun n => if n.id ∈ descendants then { n with parentId := some id } else n) }

end Db

/-- The new status of a node; a success is kept. -/
def Node.setStatus (n : Node) (status : NodeStatus) : Node :=
  if n.status = .succeeded then n else { n with status }

/-- A node that is in its place changes its status only. -/
def updateStatus (db : Db) (node : Node) (status : NodeStatus) (updates : Dict Nat NodeUpdate) :
    Db × Dict Nat NodeUpdate :=
  if node.status = .succeeded then (db, updates)
  else
    let node := { node with status }
    (db.save node, updates.set node.id node.update)

/-- Find the node's parent, store the node, and hand it its descendants. -/
def place (engine : Engine) (db : Db) (clusterId : Nat) (root : Node) (node : Option Node) (name : Name)
    (status : NodeStatus) (updates : Dict Nat NodeUpdate) : Db × Dict Nat NodeUpdate :=
  let parentId := ((db.parentOf engine clusterId name).getD root).id
  let node' := match node with
    | none => db.newNode name clusterId status (some parentId)
    | some node => { node with parentId := some parentId }.setStatus status
  let stored := match node with
    | none => db.addNode node'
    | some _ => db.save node'
  let descendants := engine.all (stored.nodes.filter (stored.adopts clusterId name node'.id))
  (stored.reparent (descendants.map (·.id)) node'.id,
    (descendants.map (fun d => { d with parentId := some node'.id })).foldl (fun updates d => updates.set d.id d.update)
      (updates.set node'.id node'.update))

/-- `send_event`, `none` where `urlsplit` raises. -/
def sendEvent (valid : List Char → Bool) (engine : Engine) (db : Db) (event : CrawlEvent) :
    Option (Db × Option Update) := do
  let parts ← urlsplit valid event.url
  let name ← nodeName valid event.url
  let (cluster, db, created) := db.ensureCluster parts.netloc
  let (root, db, updates) := db.ensureRoot cluster.id
  let node := if name = ROOT_NODE then some root else db.node? cluster.id name
  let (db, updates) := match node with
    | some node =>
      if name = ROOT_NODE ∨ node.parentId ≠ none then updateStatus db node event.status updates
      else place engine db cluster.id root (some node) name event.status updates
    | none => place engine db cluster.id root none name event.status updates
  return (db, broadcast created (updates.entries.map Prod.snd))

/-- An event with the choices the engine makes while it is handled. -/
structure Request where
  engine : Engine
  event : CrawlEvent

/-- Handle one event; one whose address does not split leaves the database alone. -/
def Request.handle (valid : List Char → Bool) (db : Db) (request : Request) : Db × Option Update :=
  (sendEvent valid request.engine db request.event).getD (db, none)

/-- Handle events one at a time. -/
def handleAll (valid : List Char → Bool) (db : Db) (requests : List Request) : Db :=
  requests.foldl (fun db request => (request.handle valid db).1) db

/-! ## The snapshot -/

structure GraphCluster where
  id : Nat
  name : List Char
  count : Nat
  maxDepth : Nat
  deriving DecidableEq

structure GraphNode where
  id : Nat
  clusterId : Nat
  parent : Option Nat
  name : Name
  depth : Nat
  status : NodeStatus
  deriving DecidableEq

structure Graph where
  clusters : List GraphCluster
  nodes : List GraphNode
  deriving DecidableEq

/-- The rows of the join, in the order of the node ids. -/
def Db.rows (db : Db) : List (Node × Cluster) :=
  (db.nodes.filterMap (fun n => (db.clusters.find? (fun c => c.id = n.clusterId)).map (fun c => (n, c)))).insertionSort
    (fun a b => a.1.id ≤ b.1.id)

/-- `children[id]`. -/
def childrenOf (nodes : List Node) (id : Nat) : List Nat :=
  (nodes.filter (fun n => n.parentId = some id)).map (·.id)

def rootsOf (nodes : List Node) : List Nat := (nodes.filter (fun n => n.parentId = none)).map (·.id)

/-- The ids the breadth-first walk pops, each with its depth. -/
def breadthFirst (nodes : List Node) (fuel : Nat) : Option (List (Nat × Nat)) :=
  Forest.walk (childrenOf nodes) (fun rest new => rest ++ new) fuel ((rootsOf nodes).map (fun id => (id, 0)))

/-- `clusters.setdefault` with the counts. -/
def countRow (depths : Dict Nat Nat) (clusters : Dict Nat GraphCluster) (row : Node × Cluster) : Dict Nat GraphCluster :=
  let depth := (depths.get? row.1.id).getD 0
  let cluster := (clusters.get? row.2.id).getD ⟨row.2.id, row.2.name, 0, 0⟩
  clusters.set row.2.id { cluster with count := cluster.count + 1, maxDepth := max cluster.maxDepth depth }

/-- `get_graph`, `none` if the walk is not over after one round for each row. -/
def getGraph (db : Db) : Option Graph := do
  let rows := db.rows
  let visits ← breadthFirst (rows.map Prod.fst) rows.length
  let depths := visits.foldl (fun depths v => depths.set v.1 v.2) (Dict.empty : Dict Nat Nat)
  return {
    clusters := (rows.foldl (countRow depths) .empty).entries.map Prod.snd
    nodes := rows.map (fun row =>
      ⟨row.1.id, row.2.id, row.1.parentId, row.1.name, (depths.get? row.1.id).getD 0, row.1.status⟩) }

end Linksurf.Visualization
