import HopRouting.Template.Catalog
import HopRouting.Text.Number
import HopRouting.Topology.Element

/-!
# Builders

A builder turns a declaration into a node or an edge, and an edge builder also says which id its
edge will have.

**Base.** The base builders take every part of the element from the declaration.  An edge needs a
template that the catalog has and at least one executor; its executors are declared in numbered
blocks and are used in the order of the numbers.

**File systems.** A node that is a file system is declared by its location, whose scheme names the
platform.
-/

namespace HopRouting

/-- What builds nodes of one class. -/
structure NodeBuilder where
  className : String
  build : PropertySet → Except DeclarationError Node

/-- The id that the declared end points and the declared name give an edge. -/
def Edge.declaredId (properties : PropertySet) : Except DeclarationError String := do
  let source ← properties.require Key.edgeSource
  let destination ← properties.require Key.edgeDestination
  let name ← properties.require Key.edgeName
  pure (Edge.idOf source destination name)

/-- What builds edges of one class. -/
structure EdgeBuilder where
  className : String
  build : PropertySet → Catalog → Except DeclarationError Edge
  /-- The id of the edge that the declaration is built into. -/
  edgeId : PropertySet → Except DeclarationError String := Edge.declaredId

namespace NodeBuilder

/-- Builds a node whose platform is declared. -/
def base : NodeBuilder where
  className := baseClass
  build properties := do
    let id ← properties.require Key.nodeId
    let platform ← properties.require Key.nodePlatform
    let active ← properties.flag Key.nodeActive true
    pure { id, className := baseClass, platform, active, properties }

/-- The scheme of a location, which is not empty. -/
def scheme? (uri : String) : Option String :=
  match Text.splitFirst? [':', '/', '/'] uri.toList with
  | none => none
  | some ([], _) => none
  | some (scheme, _) => some (String.ofList scheme)

/-- Builds a node whose platform is the scheme of its location. -/
def fileSystem : NodeBuilder where
  className := "fs"
  build properties := do
    let uri ← properties.require Key.nodeFileSystem
    let some scheme := scheme? uri | throw (.invalid Key.nodeFileSystem uri)
    let id ← properties.require Key.nodeId
    let active ← properties.flag Key.nodeActive true
    pure { id, className := "fs", platform := scheme.toLower, active, properties }

end NodeBuilder

namespace EdgeBuilder

/-- What precedes the first dot of a key. -/
def blockName (key : String) : String :=
  String.ofList (key.toList.takeWhile (· ≠ '.'))

/-- The number of an executor block. -/
def blockNumber (name : String) : Except DeclarationError Nat :=
  match Text.word? name with
  | some number => .ok number
  | none => .error (.invalid (Key.edgeExecutors ++ "." ++ name) name)

/-- The executors of an edge, one for each block below the executor scope, ordered by number. -/
def executors (properties : PropertySet) : Except DeclarationError (List Executor) := do
  let blocks := properties.block Key.edgeExecutors
  let numbers ← (blocks.keys.map blockName).eraseDups.mapM blockNumber
  (numbers.mergeSort (· ≤ ·)).mapM fun number => Executor.ofBlock (blocks.block number.repr)

/-- Builds an edge whose template is known and that has an executor. -/
def base : EdgeBuilder where
  className := baseClass
  build properties catalog := do
    let source ← properties.require Key.edgeSource
    let destination ← properties.require Key.edgeDestination
    let name ← properties.require Key.edgeName
    let templateUri ← properties.require Key.edgeTemplate
    let _ ← (catalog templateUri).mapError DeclarationError.template
    let executors ← executors properties
    if executors.isEmpty then throw (.missing Key.edgeExecutors)
    let active ← properties.flag Key.edgeActive true
    pure { id := Edge.idOf source destination name, source, destination, name,
           className := baseClass, templateUri, executors, active, properties }

end EdgeBuilder

end HopRouting
