import HopRouting.PropertySet.File
import HopRouting.Sync.Change
import HopRouting.Sync.Report
import HopRouting.Topology.Graph
import HopRouting.Topology.Registry

/-!
# Following changes

Taking in a file loads its properties, stamps the identity that its path tells over them, builds
the element they declare, and puts it into the graph.  Forgetting a file removes the element that
its path tells; the file itself may be gone already.

Every operation is done whole or not at all, and none stops the others of its batch.
-/

namespace HopRouting

/-- What is needed to build the elements that files declare. -/
structure Workshop where
  settings : Settings
  registry : Registry
  catalog : Catalog
  /-- The properties of the file at a path. -/
  load : Path → Except PropertyFileError PropertySet

/-- What a file declares. -/
inductive Element where
  | node (node : Node)
  | edge (edge : Edge)

namespace Workshop

/-- The properties with the identity of a node stamped over them. -/
def stampNode (properties : PropertySet) (id : String) : PropertySet :=
  properties.insert Key.nodeId id

/-- The properties with the identity of an edge stamped over them. -/
def stampEdge (properties : PropertySet) (source destination name : String) : PropertySet :=
  ((properties.insert Key.edgeSource source).insert Key.edgeDestination destination).insert
    Key.edgeName name

/-- The element that the file at a path declares in its role, if it can be built. -/
def element? (workshop : Workshop) (role : PathRole) (path : Path) : Option Element := do
  let properties ← (workshop.load (workshop.settings.repositoryDir.join path)).toOption
  match role with
  | .node id =>
    let node ← (workshop.registry.buildNode (stampNode properties id)).toOption
    pure (.node node)
  | .edge source destination name =>
    let declaration := stampEdge properties source destination name
    let edge ← (workshop.registry.buildEdge declaration workshop.catalog).toOption
    pure (.edge edge)
  | .skipped _ => none
  | .ignored => none

/-- Puts an element into a graph. -/
def place (graph : Graph) : Element → Graph
  | .node node => (graph.upsertNode node).2
  | .edge edge => (graph.upsertEdge edge).2

/-- Takes in the file at a path. -/
def addPath (workshop : Workshop) (graph : Graph) (path : Path) : Outcome × Graph :=
  match workshop.settings.roleOf path with
  | .skipped reason => (.skipped reason, graph)
  | .ignored => (.ignored, graph)
  | role =>
    match workshop.element? role path with
    | some element => (.applied, place graph element)
    | none => (.skipped .loadFailed, graph)

/-- The outcome of removing something, by whether it was there. -/
def removal (result : Bool × Graph) : Outcome × Graph :=
  (if result.1 then .applied else .rejected, result.2)

/-- Forgets the file at a path. -/
def removePath (workshop : Workshop) (graph : Graph) (path : Path) : Outcome × Graph :=
  match workshop.settings.roleOf path with
  | .skipped reason => (.skipped reason, graph)
  | .ignored => (.ignored, graph)
  | .node id => removal (graph.removeNode id)
  | .edge source destination name =>
    match workshop.registry.edgeId (stampEdge ∅ source destination name) with
    | .ok id => removal (graph.removeEdge id)
    | .error _ => (.skipped .loadFailed, graph)

/-- Does one operation. -/
def perform (workshop : Workshop) (graph : Graph) : Operation → Outcome × Graph
  | .add path => workshop.addPath graph path
  | .remove path => workshop.removePath graph path

/-- Does operations in order. -/
def performAll (workshop : Workshop) (graph : Graph) :
    List Operation → List (Path × Outcome) × Graph
  | [] => ([], graph)
  | operation :: rest =>
    let (outcome, graph) := workshop.perform graph operation
    let (outcomes, graph) := workshop.performAll graph rest
    ((operation.path, outcome) :: outcomes, graph)

/-- Follows a batch of changes. -/
def process (workshop : Workshop) (graph : Graph) (changes : List Change) : Report × Graph :=
  let (outcomes, graph) := workshop.performAll graph (changes.flatMap Change.operations)
  (⟨outcomes⟩, graph)

end Workshop

end HopRouting
