import Std.Data.ExtTreeSet
import HopRouting.Topology.Element

/-!
# The flow graph

The graph keeps its nodes and its edges by id, in two maps that know nothing of each other: an
edge may name nodes that are not there.  Beside them it keeps an index of the ids of the edges
that leave each node, so that the departures of a node are found without a search.

Every change answers whether it changed or replaced something.  A snapshot is an immutable view
for route search, in which the edges are grouped by the node they leave.
-/

namespace HopRouting

/-- Nodes and edges by id, with an index of the edges that leave each node. -/
structure Graph where
  nodes : Std.ExtTreeMap String Node
  edges : Std.ExtTreeMap String Edge
  /-- Ids of the edges that leave a node; a node that no edge leaves has no set. -/
  outgoing : Std.ExtTreeMap String (Std.ExtTreeSet String)
  deriving DecidableEq

namespace Graph

/-- The graph without nodes and edges. -/
def empty : Graph := ⟨∅, ∅, ∅⟩

section Nodes

/-- Adds a node unless its id is taken; answers whether it was added. -/
def addNode (graph : Graph) (node : Node) : Bool × Graph :=
  if graph.nodes.contains node.id then (false, graph)
  else (true, { graph with nodes := graph.nodes.insert node.id node })

/-- Puts a node in place of the one with its id; answers whether there was one. -/
def upsertNode (graph : Graph) (node : Node) : Bool × Graph :=
  (graph.nodes.contains node.id, { graph with nodes := graph.nodes.insert node.id node })

/-- Removes a node but none of the edges that name it; answers whether it was there. -/
def removeNode (graph : Graph) (id : String) : Bool × Graph :=
  (graph.nodes.contains id, { graph with nodes := graph.nodes.erase id })

end Nodes

section Edges

/-- Enters an edge id into the index. -/
def link (outgoing : Std.ExtTreeMap String (Std.ExtTreeSet String)) (source id : String) :
    Std.ExtTreeMap String (Std.ExtTreeSet String) :=
  outgoing.insert source ((outgoing[source]?.getD ∅).insert id)

/-- Takes an edge id out of the index, and its set if that becomes empty. -/
def unlink (outgoing : Std.ExtTreeMap String (Std.ExtTreeSet String)) (source id : String) :
    Std.ExtTreeMap String (Std.ExtTreeSet String) :=
  match outgoing[source]? with
  | none => outgoing
  | some ids =>
    if (ids.erase id).isEmpty then outgoing.erase source else outgoing.insert source (ids.erase id)

/-- Adds an edge unless its id is taken; answers whether it was added. -/
def addEdge (graph : Graph) (edge : Edge) : Bool × Graph :=
  if graph.edges.contains edge.id then (false, graph)
  else
    (true, { graph with
      edges := graph.edges.insert edge.id edge
      outgoing := link graph.outgoing edge.source edge.id })

/-- Puts an edge in place of the one with its id, which may have left another node; answers
whether there was one. -/
def upsertEdge (graph : Graph) (edge : Edge) : Bool × Graph :=
  let linked := link graph.outgoing edge.source edge.id
  let outgoing :=
    match graph.edges[edge.id]? with
    | some old => if old.source = edge.source then linked else unlink linked old.source edge.id
    | none => linked
  (graph.edges.contains edge.id,
    { graph with edges := graph.edges.insert edge.id edge, outgoing })

/-- Removes an edge; answers whether it was there. -/
def removeEdge (graph : Graph) (id : String) : Bool × Graph :=
  match graph.edges[id]? with
  | none => (false, graph)
  | some edge =>
    (true, { graph with
      edges := graph.edges.erase id
      outgoing := unlink graph.outgoing edge.source id })

end Edges

section Queries

/-- The edges that leave a node, by increasing id. -/
def departures (graph : Graph) (id : String) : List Edge :=
  (graph.outgoing[id]?.getD ∅).toList.filterMap fun id => graph.edges[id]?

/-- The number of nodes. -/
def nodeCount (graph : Graph) : Nat := graph.nodes.size

/-- The number of edges. -/
def edgeCount (graph : Graph) : Nat := graph.edges.size

end Queries

end Graph

/-- What a graph held at one moment. -/
structure Snapshot where
  nodes : Std.ExtTreeMap String Node
  /-- The edges that leave a node, by increasing id. -/
  leaving : Std.ExtTreeMap String (List Edge)

namespace Snapshot

/-- The snapshot of the empty graph. -/
def empty : Snapshot := ⟨∅, ∅⟩

/-- The edges that leave a node, by increasing id. -/
def departures (snapshot : Snapshot) (id : String) : List Edge :=
  snapshot.leaving[id]?.getD []

/-- The number of nodes. -/
def nodeCount (snapshot : Snapshot) : Nat := snapshot.nodes.size

/-- The number of edges. -/
def edgeCount (snapshot : Snapshot) : Nat :=
  snapshot.leaving.values.flatten.length

end Snapshot

namespace Graph

/-- Puts an edge in front of those that leave the same node. -/
def group (edge : Edge) (leaving : Std.ExtTreeMap String (List Edge)) :
    Std.ExtTreeMap String (List Edge) :=
  leaving.insert edge.source (edge :: leaving[edge.source]?.getD [])

/-- What the graph holds now. -/
def snapshot (graph : Graph) : Snapshot where
  nodes := graph.nodes
  leaving := graph.edges.foldr (fun _ edge leaving => group edge leaving) ∅

end Graph

end HopRouting
