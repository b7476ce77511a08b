import Linksurf.Graph

/-!
# The page in the browser

`visualization/templates/index.html`: `load` builds the page's clusters and nodes
from a snapshot, `merge` applies one update to them, and `rebuildStructure`
measures the trees again after a change of their structure. References between
objects are ids here, and what only the layout uses (positions, links, the nodes
that ripple) is left out.
-/
namespace Linksurf.Visualization

structure PageCluster where
  id : Nat
  name : List Char
  count : Nat
  maxDepth : Nat
  nodes : List Nat
  root : Option Nat
  deriving DecidableEq

structure PageNode where
  id : Nat
  name : Name
  status : NodeStatus
  depth : Nat
  cluster : Nat
  parent : Option Nat
  deriving DecidableEq

structure Page where
  clusters : List PageCluster := []
  nodes : List PageNode := []
  deriving DecidableEq

namespace Page

/-- `clusterById.get`. -/
def clusterById (page : Page) (id : Nat) : Option PageCluster := page.clusters.find? (fun c => c.id = id)

/-- `nodeById.get`. -/
def nodeById (page : Page) (id : Nat) : Option PageNode := page.nodes.find? (fun n => n.id = id)

/-- The cluster object has changed. -/
def setCluster (page : Page) (c : PageCluster) : Page :=
  { page with clusters := page.clusters.map (fun d => if d.id = c.id then c else d) }

/-- The node object has changed. -/
def setNode (page : Page) (n : PageNode) : Page :=
  { page with nodes := page.nodes.map (fun m => if m.id = n.id then n else m) }

/-! ## load -/

/-- One node of the snapshot, `none` where its cluster is missing. -/
def loadNode (page : Page) (n : GraphNode) : Option Page := do
  let cluster ← page.clusterById n.clusterId
  let node : PageNode := ⟨n.id, n.name, n.status, n.depth, cluster.id, none⟩
  let cluster := { cluster with
    nodes := cluster.nodes ++ [node.id], root := if node.depth = 0 then some node.id else cluster.root }
  return { page.setCluster cluster with nodes := page.nodes ++ [node] }

/-- The parent of one node of the snapshot, null where it is missing. -/
def loadParent (page : Page) (raw : GraphNode) : Page :=
  match raw.parent, page.nodeById raw.id with
  | some parent, some node => page.setNode { node with parent := (page.nodeById parent).map (·.id) }
  | _, _ => page

def load (data : Graph) : Option Page := do
  let page ← data.nodes.foldlM loadNode { clusters := data.clusters.map (fun c => ⟨c.id, c.name, c.count, c.maxDepth, [], none⟩) }
  let page := data.nodes.foldl loadParent page
  return { page with clusters := page.clusters.map (fun c => { c with root := c.root <|> c.nodes.head? }) }

/-! ## rebuildStructure -/

/-- `children.get`. -/
def children (page : Page) (id : Nat) : List Nat := (page.nodes.filter (fun n => n.parent = some id)).map (·.id)

/-- The nodes the traversal of a cluster pops off its stack, each with its depth. -/
def descend (page : Page) (cluster : PageCluster) : Option (List (Nat × Nat)) :=
  Forest.walk page.children (fun rest new => new.reverse ++ rest) page.nodes.length
    (cluster.root.toList.map (fun root => (root, 0)))

/-- `node.depth = depth`. -/
def setDepth (page : Page) (visit : Nat × Nat) : Page :=
  { page with nodes := page.nodes.map (fun n => if n.id = visit.1 then { n with depth := visit.2 } else n) }

/-- The depths of a cluster, and its counts. -/
def measure (page : Page) (cluster : PageCluster) : Option Page := do
  let visits ← page.descend cluster
  return (visits.foldl setDepth page).setCluster { cluster with
    count := cluster.nodes.length, maxDepth := visits.foldl (fun maxDepth visit => max maxDepth visit.2) 0 }

/-- `none` if a traversal is not over after one round for each node. -/
def rebuildStructure (page : Page) : Option Page := page.clusters.foldlM measure page

/-! ## merge -/

def mergeCluster (page : Page) (c : Cluster) : Page :=
  match page.clusterById c.id with
  | some _ => page
  | none => { page with clusters := page.clusters ++ [⟨c.id, c.name, 0, 0, [], none⟩] }

/-- The parent object of an update, `none` where the page does not hold it. -/
def parentNode (page : Page) : Option Nat → Option (Option PageNode)
  | none => some none
  | some id => (page.nodeById id).map some

/-- One node of the update, and whether the structure has changed; `none` where its
cluster or its parent is missing. -/
def mergeNode (state : Page × Bool) (n : NodeUpdate) : Option (Page × Bool) := do
  let (page, structural) := state
  let cluster ← page.clusterById n.clusterId
  let parent ← page.parentNode n.parent
  match page.nodeById n.id with
  | none =>
    let node : PageNode :=
      ⟨n.id, n.name, n.status, parent.elim 0 (fun parent => parent.depth + 1), cluster.id, parent.map (·.id)⟩
    let cluster := { cluster with
      nodes := cluster.nodes ++ [node.id], root := if parent = none then some node.id else cluster.root }
    return ({ page.setCluster cluster with nodes := page.nodes ++ [node] }, true)
  | some node =>
    return (page.setNode { node with status := n.status, parent := parent.map (·.id) },
      structural || node.parent ≠ parent.map (·.id))

/-- Apply an update; `none` where `merge` returns false. -/
def merge (page : Page) (update : Update) : Option Page := do
  let (page, structural) ← update.nodes.foldlM mergeNode (update.clusters.foldl mergeCluster page, false)
  if structural then page.rebuildStructure else return page

/-- The rows of an update up to the first whose cluster or parent is missing, and
whether there was none. -/
def mergeNodes : Page × Bool → List NodeUpdate → (Page × Bool) × Bool
  | state, [] => (state, true)
  | state, n :: nodes =>
    match mergeNode state n with
    | none => (state, false)
    | some state => mergeNodes state nodes

/-- What `merge` leaves and returns; what came before a missing row stays. `none` if a
traversal does not end. -/
def tryMerge (page : Page) (update : Update) : Option (Page × Bool) :=
  match mergeNodes (update.clusters.foldl mergeCluster page, false) update.nodes with
  | ((page, _), false) => some (page, false)
  | ((page, true), true) => page.rebuildStructure.map (fun page => (page, true))
  | ((page, false), true) => some (page, true)

end Page

/-- The updates that a browser is sent while events are handled. -/
def broadcasts (valid : List Char → Bool) (db : Db) : List Request → List Update
  | [] => []
  | request :: requests =>
    (request.handle valid db).2.toList ++ broadcasts valid (request.handle valid db).1 requests

end Linksurf.Visualization
