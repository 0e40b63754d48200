import HopRouting.Topology.Builder

/-!
# Builder registries

A registry knows which builder stands for the class that a declaration names.  It starts with the
builders that come with the library, which can also be given further names; registering a builder
replaces the one that stood for its class.
-/

namespace HopRouting

/-- The builders by the class they stand for. -/
structure Registry where
  nodeBuilders : Std.ExtTreeMap String NodeBuilder
  edgeBuilders : Std.ExtTreeMap String EdgeBuilder

namespace Registry

/-- The node builder that comes with the library under the name. -/
def builtinNode? (className : String) : Option NodeBuilder :=
  [NodeBuilder.base, NodeBuilder.fileSystem].find? (·.className = className)

/-- The edge builder that comes with the library under the name. -/
def builtinEdge? (className : String) : Option EdgeBuilder :=
  [EdgeBuilder.base].find? (·.className = className)

/-- Lets a node builder stand for its class. -/
def registerNode (registry : Registry) (builder : NodeBuilder) : Registry :=
  { registry with nodeBuilders := registry.nodeBuilders.insert builder.className builder }

/-- Lets an edge builder stand for its class. -/
def registerEdge (registry : Registry) (builder : EdgeBuilder) : Registry :=
  { registry with edgeBuilders := registry.edgeBuilders.insert builder.className builder }

/-- The registry of the builders that come with the library. -/
def builtin : Registry :=
  ((Registry.mk ∅ ∅).registerNode NodeBuilder.base).registerNode NodeBuilder.fileSystem
    |>.registerEdge EdgeBuilder.base

/-- Lets the builders that come with the library as `builtin` stand for `userClass` too. -/
def withTypeMapping (registry : Registry) (userClass builtin : String) : Registry where
  nodeBuilders :=
    match builtinNode? builtin with
    | some builder => registry.nodeBuilders.insert userClass builder
    | none => registry.nodeBuilders
  edgeBuilders :=
    match builtinEdge? builtin with
    | some builder => registry.edgeBuilders.insert userClass builder
    | none => registry.edgeBuilders

/-- The builder for the node that is declared. -/
def nodeBuilder (registry : Registry) (properties : PropertySet) :
    Except DeclarationError NodeBuilder :=
  let className := properties.valueOr Key.nodeClass baseClass
  match registry.nodeBuilders[className]? with
  | some builder => .ok builder
  | none => .error (.unknownClass className)

/-- The builder for the edge that is declared. -/
def edgeBuilder (registry : Registry) (properties : PropertySet) :
    Except DeclarationError EdgeBuilder :=
  let className := properties.valueOr Key.edgeClass baseClass
  match registry.edgeBuilders[className]? with
  | some builder => .ok builder
  | none => .error (.unknownClass className)

/-- Builds the node that is declared. -/
def buildNode (registry : Registry) (properties : PropertySet) : Except DeclarationError Node := do
  (← registry.nodeBuilder properties).build properties

/-- Builds the edge that is declared. -/
def buildEdge (registry : Registry) (properties : PropertySet) (catalog : Catalog) :
    Except DeclarationError Edge := do
  (← registry.edgeBuilder properties).build properties catalog

/-- The id of the edge that is declared. -/
def edgeId (registry : Registry) (properties : PropertySet) : Except DeclarationError String := do
  (← registry.edgeBuilder properties).edgeId properties

end Registry

end HopRouting
