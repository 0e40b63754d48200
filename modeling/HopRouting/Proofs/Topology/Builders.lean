import Mathlib.Tactic.SplitIfs
import HopRouting.Proofs.Answers
import HopRouting.Topology.Registry

/-!
# What builders make of declarations

A builder of the library takes the id of a node, and the parts of the id of an edge, from the
declaration, and it keeps the declaration with the element.  What it needs is there and is not
empty: `Node.DeclaredBy` and `Edge.DeclaredBy` say so of everything that is built
(`IsBuiltin.declaredBy_of_buildNode`, `IsBuiltin.declaredBy_of_buildEdge`).  An edge builder is
lawful if the id that it tells for a declaration is the id of the edge that it builds from it; the
base builder is.

A registry that knows only the builders of the library, under whatever classes, therefore builds
exactly the ids that are declared (`IsBuiltin.id_of_buildNode`, `IsBuiltin.lawful`), and it tells
the id of an edge without being told its class (`IsBuiltin.edgeId_of_no_class`).
-/

namespace HopRouting

namespace PropertySet

theorem require_eq_ok_iff
    {properties : PropertySet} {key value : String} :
    properties.require key = .ok value ↔ properties[key]? = some value ∧ value ≠ "" := by
  unfold require
  cases properties[key]? with
  | none => simp
  | some held =>
      by_cases hempty : held = ""
      · subst hempty
        simp only [if_true, Option.some.injEq, ne_eq, reduceCtorEq, false_iff]
        rintro ⟨rfl, hne⟩
        exact hne rfl
      · simp only [hempty, if_false, Except.ok.injEq, Option.some.injEq]
        constructor
        · rintro rfl
          exact ⟨rfl, hempty⟩
        · rintro ⟨rfl, -⟩
          rfl

end PropertySet

section Nodes

/-- The node is one that a builder of the library makes from the declaration. -/
structure Node.DeclaredBy (node : Node) (properties : PropertySet) : Prop where
  properties_eq : node.properties = properties
  id : properties.require Key.nodeId = .ok node.id
  platform_ne_empty : node.platform ≠ ""

theorem NodeBuilder.declaredBy_of_base
    {properties : PropertySet} {node : Node}
    (hbuild : NodeBuilder.base.build properties = .ok node) :
    node.DeclaredBy properties := by
  simp only [base, bind_eq_ok_iff] at hbuild
  obtain ⟨id, hid, platform, hplatform, active, -, hnode⟩ := hbuild
  cases hnode
  exact ⟨rfl, hid, (PropertySet.require_eq_ok_iff.mp hplatform).2⟩

theorem NodeBuilder.scheme?_ne_empty
    {uri scheme : String}
    (hscheme : scheme? uri = some scheme) :
    scheme ≠ "" := by
  unfold scheme? at hscheme
  split at hscheme
  · cases hscheme
  · cases hscheme
  · next text _ hsome _ =>
    cases hscheme
    intro hempty
    rw [String.ofList_eq_empty_iff] at hempty
    exact hsome hempty

theorem NodeBuilder.toLower_ne_empty
    {text : String}
    (hne : text ≠ "") :
    text.toLower ≠ "" := by
  intro hempty
  have htext : (text.map Char.toLower).toList = [] :=
    (congrArg String.toList hempty).trans String.toList_empty
  rw [String.toList_map, List.map_eq_nil_iff, String.toList_eq_nil_iff] at htext
  exact hne htext

theorem NodeBuilder.declaredBy_of_fileSystem
    {properties : PropertySet} {node : Node}
    (hbuild : NodeBuilder.fileSystem.build properties = .ok node) :
    node.DeclaredBy properties := by
  simp only [fileSystem, bind_eq_ok_iff] at hbuild
  obtain ⟨uri, -, hbuild⟩ := hbuild
  cases hscheme : scheme? uri with
  | none =>
      simp [hscheme, throw, throwThe, MonadExceptOf.throw] at hbuild
  | some scheme =>
      simp only [hscheme, bind_eq_ok_iff] at hbuild
      obtain ⟨id, hid, active, -, hnode⟩ := hbuild
      cases hnode
      exact ⟨rfl, hid, toLower_ne_empty (scheme?_ne_empty hscheme)⟩

end Nodes

section Edges

/-- The id that the builder tells for a declaration is that of the edge it builds from it. -/
def EdgeBuilder.Lawful (builder : EdgeBuilder) : Prop :=
  ∀ (properties : PropertySet) (catalog : Catalog) (edge : Edge),
    builder.build properties catalog = .ok edge → builder.edgeId properties = .ok edge.id

theorem Edge.declaredId_eq_ok
    {properties : PropertySet} {source destination name : String}
    (hsource : properties.require Key.edgeSource = .ok source)
    (hdestination : properties.require Key.edgeDestination = .ok destination)
    (hname : properties.require Key.edgeName = .ok name) :
    Edge.declaredId properties = .ok (Edge.idOf source destination name) := by
  unfold declaredId
  rw [hsource, hdestination, hname]
  rfl

/-- The edge is one that a builder of the library makes from the declaration. -/
structure Edge.DeclaredBy (edge : Edge) (properties : PropertySet) : Prop where
  properties_eq : edge.properties = properties
  source : properties.require Key.edgeSource = .ok edge.source
  destination : properties.require Key.edgeDestination = .ok edge.destination
  name : properties.require Key.edgeName = .ok edge.name
  id : edge.id = Edge.idOf edge.source edge.destination edge.name
  template : properties.require Key.edgeTemplate = .ok edge.templateUri
  executors_ne_nil : edge.executors ≠ []
  class_ne_empty : ∀ executor ∈ edge.executors, executor.className ≠ ""

theorem Edge.DeclaredBy.declaredId_eq
    {edge : Edge} {properties : PropertySet}
    (hdeclared : edge.DeclaredBy properties) :
    Edge.declaredId properties = .ok edge.id := by
  rw [hdeclared.id]
  exact Edge.declaredId_eq_ok hdeclared.source hdeclared.destination hdeclared.name

theorem Executor.class_ne_empty_of_ofBlock
    {block : PropertySet} {executor : Executor}
    (hblock : Executor.ofBlock block = .ok executor) :
    executor.className ≠ "" := by
  obtain ⟨className, hclass, hblock⟩ := bind_eq_ok_iff.mp hblock
  obtain ⟨capabilities, -, hexecutor⟩ := bind_eq_ok_iff.mp hblock
  cases hexecutor
  exact (PropertySet.require_eq_ok_iff.mp hclass).2

/-- Every executor that is declared was read from a block of its own. -/
theorem EdgeBuilder.class_ne_empty_of_executors
    {properties : PropertySet} {executors : List Executor}
    (hexecutors : EdgeBuilder.executors properties = .ok executors) :
    ∀ executor ∈ executors, executor.className ≠ "" := by
  obtain ⟨numbers, -, hblocks⟩ := bind_eq_ok_iff.mp hexecutors
  intro executor hmem
  obtain ⟨number, -, hblock⟩ := exists_of_mem_mapM_eq_ok hblocks hmem
  exact Executor.class_ne_empty_of_ofBlock hblock

/-- The base builder makes an edge of a declaration exactly if it can take all parts of it from
there, the catalog has the template, and the executors can be read. -/
theorem EdgeBuilder.build_base_eq_ok_iff
    {properties : PropertySet} {catalog : Catalog} {edge : Edge} :
    EdgeBuilder.base.build properties catalog = .ok edge ↔
      edge.DeclaredBy properties ∧ edge.className = baseClass ∧
        (∃ template, catalog edge.templateUri = .ok template) ∧
        EdgeBuilder.executors properties = .ok edge.executors ∧
        properties.flag Key.edgeActive true = .ok edge.active := by
  have hfound :
      ∀ (uri : String) (template : Template),
        (catalog uri).mapError DeclarationError.template = .ok template ↔
          catalog uri = .ok template := by
    intro uri template
    cases catalog uri with
    | error cause => simp [Except.mapError]
    | ok held => simp [Except.mapError]
  simp only [base, bind_eq_ok_iff, hfound]
  constructor
  · rintro ⟨source, hsource, destination, hdestination, name, hname, uri, huri, template,
      htemplate, executors, hexecutors, hbuild⟩
    split at hbuild
    · simp [throw, throwThe, MonadExceptOf.throw, bind, Except.bind] at hbuild
    · next hnonempty =>
      obtain ⟨-, -, hbuild⟩ := bind_eq_ok_iff.mp hbuild
      obtain ⟨active, hactive, hedge⟩ := bind_eq_ok_iff.mp hbuild
      cases hedge
      refine ⟨?_, rfl, ⟨template, htemplate⟩, hexecutors, hactive⟩
      exact
        { properties_eq := rfl
          source := hsource
          destination := hdestination
          name := hname
          id := rfl
          template := huri
          executors_ne_nil := fun hnil => hnonempty (List.isEmpty_iff.mpr hnil)
          class_ne_empty := class_ne_empty_of_executors hexecutors }
  · rintro ⟨hdeclared, hclass, ⟨template, htemplate⟩, hexecutors, hactive⟩
    refine ⟨_, hdeclared.source, _, hdeclared.destination, _, hdeclared.name, _,
      hdeclared.template, template, htemplate, _, hexecutors, ?_⟩
    rw [if_neg (mt List.isEmpty_iff.mp hdeclared.executors_ne_nil), ← hdeclared.id, ← hclass]
    refine bind_eq_ok_iff.mpr ⟨_, hactive, ?_⟩
    rw [← hdeclared.properties_eq]
    rfl

theorem EdgeBuilder.declaredBy_of_base
    {properties : PropertySet} {catalog : Catalog} {edge : Edge}
    (hbuild : EdgeBuilder.base.build properties catalog = .ok edge) :
    edge.DeclaredBy properties :=
  (build_base_eq_ok_iff.mp hbuild).1

theorem EdgeBuilder.lawful_base :
    EdgeBuilder.base.Lawful :=
  fun _ _ _ hbuild => (declaredBy_of_base hbuild).declaredId_eq

end Edges

namespace Registry

/-- The registry of the builders that come with the library, in which they have further names: each
pair is a class and the name of the builders that stand for it. -/
def ofMappings (mappings : List (String × String)) : Registry :=
  mappings.foldl (fun registry mapping => registry.withTypeMapping mapping.1 mapping.2) builtin

/-- Every builder comes with the library, and base edges are built by their own. -/
structure IsBuiltin (registry : Registry) : Prop where
  node :
    ∀ (className : String) (builder : NodeBuilder),
      registry.nodeBuilders[className]? = some builder →
        builder = NodeBuilder.base ∨ builder = NodeBuilder.fileSystem
  edge :
    ∀ (className : String) (builder : EdgeBuilder),
      registry.edgeBuilders[className]? = some builder → builder = EdgeBuilder.base
  base_edge : registry.edgeBuilders[baseClass]? = some EdgeBuilder.base

theorem isBuiltin_builtin : builtin.IsBuiltin := by
  constructor
  · intro className builder hheld
    simp only [builtin, registerNode, registerEdge, Std.ExtTreeMap.getElem?_insert] at hheld
    split_ifs at hheld
    · exact Or.inr (Option.some.inj hheld).symm
    · exact Or.inl (Option.some.inj hheld).symm
    · simp at hheld
  · intro className builder hheld
    simp only [builtin, registerNode, registerEdge, Std.ExtTreeMap.getElem?_insert] at hheld
    split_ifs at hheld
    · exact (Option.some.inj hheld).symm
    · simp at hheld
  · exact Std.ExtTreeMap.getElem?_insert_self

theorem builtinNode?_cases
    {className : String} {builder : NodeBuilder}
    (hbuilder : builtinNode? className = some builder) :
    builder = NodeBuilder.base ∨ builder = NodeBuilder.fileSystem := by
  have hmem := List.mem_of_find?_eq_some hbuilder
  simpa using hmem

theorem builtinEdge?_cases
    {className : String} {builder : EdgeBuilder}
    (hbuilder : builtinEdge? className = some builder) :
    builder = EdgeBuilder.base := by
  have hmem := List.mem_of_find?_eq_some hbuilder
  simpa using hmem

theorem IsBuiltin.withTypeMapping
    {registry : Registry}
    (hbuiltin : registry.IsBuiltin)
    (userClass builtin : String) :
    (registry.withTypeMapping userClass builtin).IsBuiltin := by
  constructor
  · intro className builder hheld
    simp only [Registry.withTypeMapping] at hheld
    split at hheld
    · next mapped hmapped =>
      rw [Std.ExtTreeMap.getElem?_insert] at hheld
      split at hheld
      · cases hheld
        exact builtinNode?_cases hmapped
      · exact hbuiltin.node className builder hheld
    · exact hbuiltin.node className builder hheld
  · intro className builder hheld
    simp only [Registry.withTypeMapping] at hheld
    split at hheld
    · next mapped hmapped =>
      rw [Std.ExtTreeMap.getElem?_insert] at hheld
      split at hheld
      · cases hheld
        exact builtinEdge?_cases hmapped
      · exact hbuiltin.edge className builder hheld
    · exact hbuiltin.edge className builder hheld
  · simp only [Registry.withTypeMapping]
    split
    · next mapped hmapped =>
      rw [Std.ExtTreeMap.getElem?_insert]
      split
      · rw [builtinEdge?_cases hmapped]
      · exact hbuiltin.base_edge
    · exact hbuiltin.base_edge

theorem isBuiltin_ofMappings
    (mappings : List (String × String)) :
    (ofMappings mappings).IsBuiltin := by
  have hfold :
      ∀ registry : Registry, registry.IsBuiltin →
        (mappings.foldl (fun registry mapping =>
          registry.withTypeMapping mapping.1 mapping.2) registry).IsBuiltin := by
    induction mappings with
    | nil =>
        intro registry hbuiltin
        exact hbuiltin
    | cons mapping rest ih =>
        intro registry hbuiltin
        exact ih _ (hbuiltin.withTypeMapping mapping.1 mapping.2)
  exact hfold builtin isBuiltin_builtin

/-- The builder that a registry takes for an edge is one of those it knows. -/
theorem edgeBuilder_eq_ok_iff
    {registry : Registry} {properties : PropertySet} {builder : EdgeBuilder} :
    registry.edgeBuilder properties = .ok builder ↔
      registry.edgeBuilders[properties.valueOr Key.edgeClass baseClass]? = some builder := by
  simp only [edgeBuilder]
  cases registry.edgeBuilders[properties.valueOr Key.edgeClass baseClass]? with
  | none => simp
  | some held => simp

/-- Every edge builder of the registry is lawful. -/
def Lawful (registry : Registry) : Prop :=
  ∀ (className : String) (builder : EdgeBuilder),
    registry.edgeBuilders[className]? = some builder → builder.Lawful

theorem Lawful.edgeId_eq
    {registry : Registry}
    (hlawful : registry.Lawful)
    {properties : PropertySet} {catalog : Catalog} {edge : Edge}
    (hbuild : registry.buildEdge properties catalog = .ok edge) :
    registry.edgeId properties = .ok edge.id := by
  obtain ⟨builder, hbuilder, hedge⟩ := bind_eq_ok_iff.mp hbuild
  refine bind_eq_ok_iff.mpr ⟨builder, hbuilder, ?_⟩
  exact hlawful _ builder (edgeBuilder_eq_ok_iff.mp hbuilder) properties catalog edge hedge

namespace IsBuiltin

variable {registry : Registry}

theorem lawful
    (hbuiltin : registry.IsBuiltin) :
    registry.Lawful := by
  intro className builder hheld
  rw [hbuiltin.edge className builder hheld]
  exact EdgeBuilder.lawful_base

theorem declaredBy_of_buildNode
    (hbuiltin : registry.IsBuiltin)
    {properties : PropertySet} {node : Node}
    (hbuild : registry.buildNode properties = .ok node) :
    node.DeclaredBy properties := by
  obtain ⟨builder, hbuilder, hnode⟩ := bind_eq_ok_iff.mp hbuild
  unfold nodeBuilder at hbuilder
  cases hheld : registry.nodeBuilders[properties.valueOr Key.nodeClass baseClass]? with
  | none =>
      simp [hheld] at hbuilder
  | some held =>
      simp only [hheld, Except.ok.injEq] at hbuilder
      subst hbuilder
      rcases hbuiltin.node _ _ hheld with rfl | rfl
      · exact NodeBuilder.declaredBy_of_base hnode
      · exact NodeBuilder.declaredBy_of_fileSystem hnode

theorem id_of_buildNode
    (hbuiltin : registry.IsBuiltin)
    {properties : PropertySet} {node : Node}
    (hbuild : registry.buildNode properties = .ok node) :
    properties[Key.nodeId]? = some node.id :=
  (PropertySet.require_eq_ok_iff.mp (hbuiltin.declaredBy_of_buildNode hbuild).id).1

/-- Whatever class is declared, the edge is one that the base builder makes. -/
theorem build_base_of_buildEdge
    (hbuiltin : registry.IsBuiltin)
    {properties : PropertySet} {catalog : Catalog} {edge : Edge}
    (hbuild : registry.buildEdge properties catalog = .ok edge) :
    EdgeBuilder.base.build properties catalog = .ok edge := by
  obtain ⟨builder, hbuilder, hedge⟩ := bind_eq_ok_iff.mp hbuild
  rwa [hbuiltin.edge _ _ (edgeBuilder_eq_ok_iff.mp hbuilder)] at hedge

theorem declaredBy_of_buildEdge
    (hbuiltin : registry.IsBuiltin)
    {properties : PropertySet} {catalog : Catalog} {edge : Edge}
    (hbuild : registry.buildEdge properties catalog = .ok edge) :
    edge.DeclaredBy properties :=
  EdgeBuilder.declaredBy_of_base (hbuiltin.build_base_of_buildEdge hbuild)

/-- Where the declared class is known, the id of an edge is that of its declared end points and
name. -/
theorem edgeId_eq
    (hbuiltin : registry.IsBuiltin)
    {properties : PropertySet} {id : String}
    (hid : registry.edgeId properties = .ok id) :
    Edge.declaredId properties = .ok id := by
  obtain ⟨builder, hbuilder, hid⟩ := bind_eq_ok_iff.mp hid
  rw [hbuiltin.edge _ _ (edgeBuilder_eq_ok_iff.mp hbuilder)] at hid
  exact hid

/-- A declaration that names no class is understood by the base builder. -/
theorem edgeBuilder_of_no_class
    (hbuiltin : registry.IsBuiltin)
    {properties : PropertySet}
    (hclass : properties[Key.edgeClass]? = none) :
    registry.edgeBuilder properties = .ok EdgeBuilder.base := by
  rw [edgeBuilder_eq_ok_iff, PropertySet.valueOr, hclass]
  exact hbuiltin.base_edge

theorem edgeId_of_no_class
    (hbuiltin : registry.IsBuiltin)
    {properties : PropertySet}
    (hclass : properties[Key.edgeClass]? = none) :
    registry.edgeId properties = Edge.declaredId properties := by
  unfold edgeId
  rw [hbuiltin.edgeBuilder_of_no_class hclass]
  rfl

end IsBuiltin

end Registry

end HopRouting
