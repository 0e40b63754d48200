import HopRouting.Proofs.Sync.Effects

/-!
# Identities of elements

A file may say what it likes about its own identity, and so may its overlays.  Whatever they say,
the words of the path are written over it before anything is built.

**Origin.**  `Workshop.declared_of_held_processAll` traces every element of a graph back: some batch
took in a file, at whose path the element was declared for the entry that it is kept under.  The
files may change from batch to batch, and so may the templates.

**Result.**  `Workshop.processAll_keeps_identity`: in a registry that only knows builders of the
library, under whatever classes, every node and every edge is valid and has the identity that the
path of such a file tells, as its key, in its fields and in its properties.
-/

namespace HopRouting

/-- A batch of changes, with what the files hold and which templates there are when it is
followed. -/
structure Batch where
  load : Path → Except PropertyFileError PropertySet
  catalog : Catalog
  changes : List Change

namespace Batch

/-- What is done to follow the batch, in order. -/
def operations (batch : Batch) : List Operation :=
  batch.changes.flatMap Change.operations

/-- One of the batches takes in the file at the path. -/
def Take (batches : List Batch) (path : Path) : Prop :=
  ∃ batch ∈ batches, Operation.add path ∈ batch.operations

end Batch

namespace Workshop

/-- The workshop as it is when the batch is followed. -/
def during (workshop : Workshop) (batch : Batch) : Workshop :=
  { workshop with load := batch.load, catalog := batch.catalog }

/-- What batches make of a graph, one after the other. -/
def processAll (workshop : Workshop) (graph : Graph) (batches : List Batch) : Graph :=
  batches.foldl (fun graph batch => ((workshop.during batch).process graph batch.changes).2) graph

section Origins

variable {workshop : Workshop} {entry : Graph.Entry} {element : Element}

/-- What is in the graph after an operation was there before, or the operation took in a file that
declares it. -/
theorem held_perform_cases
    (hbuiltin : workshop.registry.IsBuiltin)
    {graph : Graph} {operation : Operation}
    (hheld : (workshop.perform graph operation).2.held entry = some element) :
    graph.held entry = some element ∨
      ∃ path, operation = .add path ∧ workshop.Declares path entry element := by
  have heffect := perform_effect hbuiltin graph operation
  generalize (workshop.perform graph operation).1 = outcome at heffect
  generalize (workshop.perform graph operation).2 = next at heffect hheld
  cases heffect with
  | skipped _ => exact Or.inl hheld
  | ignored _ => exact Or.inl hheld
  | failed _ _ => exact Or.inl hheld
  | @added path named _ _ hdeclared hwritten =>
      rw [hwritten, Function.update_apply] at hheld
      split at hheld
      · next hsame =>
        cases hheld
        subst hsame
        exact Or.inr ⟨path, rfl, hdeclared⟩
      · exact Or.inl hheld
  | removed _ _ hcleared =>
      rw [hcleared, Function.update_apply] at hheld
      split at hheld
      · cases hheld
      · exact Or.inl hheld
  | rejected _ _ => exact Or.inl hheld

theorem held_performAll_cases
    (hbuiltin : workshop.registry.IsBuiltin)
    {graph : Graph} {operations : List Operation}
    (hheld : (workshop.performAll graph operations).2.held entry = some element) :
    graph.held entry = some element ∨
      ∃ path, .add path ∈ operations ∧ workshop.Declares path entry element := by
  induction operations generalizing graph with
  | nil =>
      exact Or.inl hheld
  | cons operation rest ih =>
      rcases ih hheld with hbefore | ⟨path, hmem, hdeclared⟩
      · rcases held_perform_cases hbuiltin hbefore with hfirst | ⟨path, rfl, hdeclared⟩
        · exact Or.inl hfirst
        · exact Or.inr ⟨path, List.mem_cons_self, hdeclared⟩
      · exact Or.inr ⟨path, List.mem_cons_of_mem _ hmem, hdeclared⟩

/-- What is in the graph after batches was there before, or one of them took in a file that
declared it then. -/
theorem held_processAll_cases
    (hbuiltin : workshop.registry.IsBuiltin)
    {graph : Graph} {batches : List Batch}
    (hheld : (workshop.processAll graph batches).held entry = some element) :
    graph.held entry = some element ∨
      ∃ batch ∈ batches, ∃ path, .add path ∈ batch.operations ∧
        (workshop.during batch).Declares path entry element := by
  induction batches generalizing graph with
  | nil =>
      exact Or.inl hheld
  | cons batch rest ih =>
      rcases ih hheld with hbefore | ⟨later, hlater, hdeclared⟩
      · have hsame : (workshop.during batch).registry.IsBuiltin := hbuiltin
        rcases held_performAll_cases hsame hbefore with hfirst | ⟨path, hmem, hdeclared⟩
        · exact Or.inl hfirst
        · exact Or.inr ⟨batch, List.mem_cons_self, path, hmem, hdeclared⟩
      · exact Or.inr ⟨later, List.mem_cons_of_mem _ hlater, hdeclared⟩

/-- A graph that was built by batches alone has nothing in it that no file declared. -/
theorem declared_of_held_processAll
    (hbuiltin : workshop.registry.IsBuiltin)
    {batches : List Batch}
    (hheld : (workshop.processAll .empty batches).held entry = some element) :
    ∃ batch ∈ batches, ∃ path, .add path ∈ batch.operations ∧
      (workshop.during batch).Declares path entry element := by
  rcases held_processAll_cases hbuiltin hheld with hempty | hdeclared
  · rw [Graph.held_empty] at hempty
    cases hempty
  · exact hdeclared

end Origins

/-- The node under a key is valid, and the key is the one that the path of a file tells which one of
the batches took in. -/
structure KeepsNode (workshop : Workshop) (batches : List Batch) (key : String) (node : Node) :
    Prop where
  id : node.id = key
  declared_id : node.properties[Key.nodeId]? = some key
  platform_ne_empty : node.platform ≠ ""
  path : ∃ path, Batch.Take batches path ∧ workshop.settings.roleOf path = .node key

/-- The edge under a key is valid, and its end points and its name are those that the path of a file
tells which one of the batches took in. -/
structure KeepsEdge (workshop : Workshop) (batches : List Batch) (key : String) (edge : Edge) :
    Prop where
  id : edge.id = key
  key_eq : key = edge.source ++ "_" ++ edge.destination ++ "_" ++ edge.name
  source_ne_empty : edge.source ≠ ""
  destination_ne_empty : edge.destination ≠ ""
  name_ne_empty : edge.name ≠ ""
  declared_source : edge.properties[Key.edgeSource]? = some edge.source
  declared_destination : edge.properties[Key.edgeDestination]? = some edge.destination
  declared_name : edge.properties[Key.edgeName]? = some edge.name
  template_ne_empty : edge.templateUri ≠ ""
  executors_ne_nil : edge.executors ≠ []
  class_ne_empty : ∀ executor ∈ edge.executors, executor.className ≠ ""
  path :
    ∃ path, Batch.Take batches path ∧
      workshop.settings.roleOf path = .edge edge.source edge.destination edge.name

section Identities

variable {workshop : Workshop} {batches : List Batch} {batch : Batch} {path : Path} {key : String}

theorem Declares.keepsNode
    (hbuiltin : workshop.registry.IsBuiltin)
    (hbatch : batch ∈ batches)
    (hpath : .add path ∈ batch.operations)
    {node : Node}
    (hdeclares : (workshop.during batch).Declares path (.node key) (.node node)) :
    workshop.KeepsNode batches key node := by
  cases hdeclares with
  | @node _ properties _ hrole hload hbuild =>
      have hdeclared := hbuiltin.declaredBy_of_buildNode hbuild
      have hid := hbuiltin.id_of_buildNode hbuild
      rw [Std.ExtTreeMap.getElem?_insert_self] at hid
      exact
        { id := (Option.some.inj hid).symm
          declared_id := by
            rw [hdeclared.properties_eq]
            exact Std.ExtTreeMap.getElem?_insert_self
          platform_ne_empty := hdeclared.platform_ne_empty
          path := ⟨path, ⟨batch, hbatch, hpath⟩, hrole⟩ }

theorem Declares.keepsEdge
    (hbuiltin : workshop.registry.IsBuiltin)
    (hbatch : batch ∈ batches)
    (hpath : .add path ∈ batch.operations)
    {edge : Edge}
    (hdeclares : (workshop.during batch).Declares path (.edge key) (.edge edge)) :
    workshop.KeepsEdge batches key edge := by
  cases hdeclares with
  | @edge source destination name properties _ hrole hload hbuild =>
      obtain ⟨hproperties, hsource, hdestination, hname, hid, htemplate, hexecutors, hclasses⟩ :=
        hbuiltin.declaredBy_of_buildEdge hbuild
      rw [PropertySet.require_eq_ok_iff] at hsource hdestination hname htemplate
      obtain rfl : source = edge.source :=
        Option.some.inj ((getElem?_edgeSource_stampEdge ..).symm.trans hsource.1)
      obtain rfl : destination = edge.destination :=
        Option.some.inj ((getElem?_edgeDestination_stampEdge ..).symm.trans hdestination.1)
      obtain rfl : name = edge.name :=
        Option.some.inj ((getElem?_edgeName_stampEdge ..).symm.trans hname.1)
      rw [← hproperties] at hsource hdestination hname
      exact
        { id := hid
          key_eq := rfl
          source_ne_empty := hsource.2
          destination_ne_empty := hdestination.2
          name_ne_empty := hname.2
          declared_source := hsource.1
          declared_destination := hdestination.1
          declared_name := hname.1
          template_ne_empty := htemplate.2
          executors_ne_nil := hexecutors
          class_ne_empty := hclasses
          path := ⟨path, ⟨batch, hbatch, hpath⟩, hrole⟩ }

/-- Whatever files and overlays hold, every element of the graph is valid and has the identity of a
path that was taken in. -/
theorem processAll_keeps_identity
    {mappings : List (String × String)}
    (hregistry : workshop.registry = .ofMappings mappings)
    (batches : List Batch) :
    (∀ key node, (workshop.processAll .empty batches).nodes[key]? = some node →
      workshop.KeepsNode batches key node) ∧
    ∀ key edge, (workshop.processAll .empty batches).edges[key]? = some edge →
      workshop.KeepsEdge batches key edge := by
  have hbuiltin : workshop.registry.IsBuiltin := by
    rw [hregistry]
    exact Registry.isBuiltin_ofMappings mappings
  constructor
  · intro key node hnode
    have hheld :
        (workshop.processAll .empty batches).held (.node key) = some (.node node) :=
      congrArg (Option.map Element.node) hnode
    obtain ⟨batch, hbatch, path, hpath, hdeclares⟩ := declared_of_held_processAll hbuiltin hheld
    exact hdeclares.keepsNode hbuiltin hbatch hpath
  · intro key edge hedge
    have hheld :
        (workshop.processAll .empty batches).held (.edge key) = some (.edge edge) :=
      congrArg (Option.map Element.edge) hedge
    obtain ⟨batch, hbatch, path, hpath, hdeclares⟩ := declared_of_held_processAll hbuiltin hheld
    exact hdeclares.keepsEdge hbuiltin hbatch hpath

end Identities

/-- What the files of the depot hold: the node says that it is another one, and so does the edge. -/
def depotFiles (path : Path) : Except PropertyFileError PropertySet :=
  if path = .ofText "git-flowgraph/flowgraph/A/B/e.properties" then
    .ok (.ofList
      [(Key.edgeSource, "Z"), (Key.edgeName, "B_e"), (Key.edgeTemplate, "FS:///any.template"),
        ("flow.edge.specExecutors.7.specExecInstance.class", "copy")])
  else depot.load path

/-- A template for every URI. -/
def generousCatalog : Catalog := fun uri =>
  .ok { uri := uri, description := "", input := .any, output := .any, config := ∅ }

/-- The files of the depot are taken in; then the templates are lost, and the edge fails to be built
again, and the node is given another file, which is not there. -/
def depotBatches : List Batch :=
  [⟨depotFiles, generousCatalog, [.added (.ofText "flowgraph/A/A.props"),
      .added (.ofText "flowgraph/A/B/e.properties")]⟩,
    ⟨depotFiles, depot.catalog, [.modified (.ofText "flowgraph/A/B/e.properties"),
      .added (.ofText "flowgraph/A/other.props")]⟩]

theorem processAll_keeps_identity_depot :
    (∃ node, (depot.processAll .empty depotBatches).nodes["A"]? = some node ∧
      depot.KeepsNode depotBatches "A" node) ∧
    ∃ edge, (depot.processAll .empty depotBatches).edges["A_B_e"]? = some edge ∧
      depot.KeepsEdge depotBatches "A_B_e" edge := by
  obtain ⟨hnodes, hedges⟩ := @processAll_keeps_identity depot _ rfl depotBatches
  have hheld :
      ((depot.processAll .empty depotBatches).nodes["A"]?.isSome &&
        (depot.processAll .empty depotBatches).edges["A_B_e"]?.isSome) = true := by
    decide +kernel
  rw [Bool.and_eq_true, Option.isSome_iff_exists, Option.isSome_iff_exists] at hheld
  obtain ⟨⟨node, hnode⟩, edge, hedge⟩ := hheld
  exact ⟨⟨node, hnode, hnodes "A" node hnode⟩, edge, hedge, hedges "A_B_e" edge hedge⟩

end Workshop

end HopRouting
