import Mathlib.Logic.Function.Basic
import HopRouting.Proofs.Sync.Roles
import HopRouting.Proofs.Topology.Builders
import HopRouting.Proofs.Topology.Index
import HopRouting.Sync.Apply

/-!
# What operations do

An operation is about the entry of the graph that its path names.  `Declares` says which element a
file declares for that entry: the one that is built from the properties of the file after the words
of the path were written over them.

**Effects.**  `Effect` lists what can become of an operation.  An operation that is applied writes
the entry of its path and no other; any other outcome leaves the whole graph as it is.  Removing is
rejected exactly where there is nothing under the entry, and adding never is.

**Result.**  `process_effects`: in a registry that only knows builders of the library, under
whatever classes, every operation of every batch has one of these effects, in order and whatever
the operations before it have done.
-/

namespace HopRouting

/-- The entry of a graph that an element is kept under. -/
def Element.entry : Element → Graph.Entry
  | .node own => .node own.id
  | .edge own => .edge own.id

namespace Graph

/-- What a graph holds under an entry. -/
def held (graph : Graph) : Entry → Option Element
  | .node id => graph.nodes[id]?.map Element.node
  | .edge id => graph.edges[id]?.map Element.edge

theorem held_empty
    (entry : Entry) :
    empty.held entry = none := by
  cases entry with
  | node id => simp [held, empty]
  | edge id => simp [held, empty]

/-- The update that puts an element into the graph. -/
def Update.put : Element → Update
  | .node own => .node (.upsert own)
  | .edge own => .edge (.upsert own)

/-- The update that empties an entry of the graph. -/
def Update.clear : Entry → Update
  | .node id => .node (.remove id)
  | .edge id => .edge (.remove id)

section Held

variable (graph : Graph)

theorem held_put
    (element : Element) :
    (graph.update (.put element)).2.held =
      Function.update graph.held element.entry (some element) := by
  funext entry
  rw [Function.update_apply]
  cases element with
  | node own =>
      obtain ⟨-, hnodes, hedges⟩ := graph.update_node (.upsert own)
      cases entry with
      | node id =>
          simp only [held, Update.put, hnodes, Write.apply, Element.entry,
            Std.ExtTreeMap.getElem?_insert, Std.LawfulEqOrd.compare_eq_iff_eq, Entry.node.injEq,
            eq_comm (a := id)]
          split <;> rfl
      | edge id =>
          simp [held, Update.put, hedges, Element.entry]
  | edge own =>
      obtain ⟨-, hnodes, hedges⟩ := graph.update_edge (.upsert own)
      cases entry with
      | node id =>
          simp [held, Update.put, hnodes, Element.entry]
      | edge id =>
          simp only [held, Update.put, hedges, Write.apply, Element.entry,
            Std.ExtTreeMap.getElem?_insert, Std.LawfulEqOrd.compare_eq_iff_eq, Entry.edge.injEq,
            eq_comm (a := id)]
          split <;> rfl

theorem held_clear
    (entry : Entry) :
    (graph.update (.clear entry)).2.held = Function.update graph.held entry none := by
  funext other
  rw [Function.update_apply]
  cases entry with
  | node id =>
      obtain ⟨-, hnodes, hedges⟩ := graph.update_node (.remove id)
      cases other with
      | node other =>
          simp only [held, Update.clear, hnodes, Write.apply, Std.ExtTreeMap.getElem?_erase,
            Std.LawfulEqOrd.compare_eq_iff_eq, Entry.node.injEq, eq_comm (a := other)]
          split <;> rfl
      | edge other =>
          simp [held, Update.clear, hedges]
  | edge id =>
      obtain ⟨-, hnodes, hedges⟩ := graph.update_edge (.remove id)
      cases other with
      | node other =>
          simp [held, Update.clear, hnodes]
      | edge other =>
          simp only [held, Update.clear, hedges, Write.apply, Std.ExtTreeMap.getElem?_erase,
            Std.LawfulEqOrd.compare_eq_iff_eq, Entry.edge.injEq, eq_comm (a := other)]
          split <;> rfl

theorem clear_fst
    (entry : Entry) :
    (graph.update (.clear entry)).1 = (graph.held entry).isSome := by
  cases entry with
  | node id =>
      rw [Update.clear, (graph.update_node (.remove id)).1, held, Option.isSome_map]
      exact Std.ExtTreeMap.contains_eq_isSome_getElem?
  | edge id =>
      rw [Update.clear, (graph.update_edge (.remove id)).1, held, Option.isSome_map]
      exact Std.ExtTreeMap.contains_eq_isSome_getElem?

theorem clear_of_held_eq_none
    {entry : Entry}
    (habsent : graph.held entry = none) :
    (graph.update (.clear entry)).2 = graph := by
  cases entry with
  | node id =>
      have hnone : graph.nodes[id]? = none := Option.map_eq_none_iff.mp habsent
      simp [Update.clear, update, removeNode, erase_eq_of_getElem?_eq_none hnone]
  | edge id =>
      have hnone : graph.edges[id]? = none := Option.map_eq_none_iff.mp habsent
      simp [Update.clear, update, removeEdge, hnone]

end Held

/-- Whatever the histories of two graphs, they are the same graph if they hold the same. -/
theorem Reachable.eq_of_held_eq
    {graph other : Graph}
    (hreach : graph.Reachable)
    (hreach' : other.Reachable)
    (hheld : graph.held = other.held) :
    graph = other := by
  have hnode : Function.Injective Element.node := by
    rintro node other ⟨⟩
    rfl
  have hedge : Function.Injective Element.edge := by
    rintro edge other ⟨⟩
    rfl
  apply hreach.ext hreach'
  · exact Std.ExtTreeMap.ext_getElem? fun id =>
      Option.map_injective hnode (congrFun hheld (.node id))
  · exact Std.ExtTreeMap.ext_getElem? fun id =>
      Option.map_injective hedge (congrFun hheld (.edge id))

end Graph

namespace Workshop

/-- The entry of the graph that a path names. -/
def entryOf? (workshop : Workshop) (path : Path) : Option Graph.Entry :=
  PathRole.entry? (workshop.settings.roleOf path)

/-- The file at a path declares an element for an entry of the graph: its properties, with the words
of the path written over them, are built into the element. -/
inductive Declares (workshop : Workshop) (path : Path) : Graph.Entry → Element → Prop
  | node {id : String} {properties : PropertySet} {built : Node}
      (role : workshop.settings.roleOf path = .node id)
      (loaded : workshop.load (workshop.settings.repositoryDir.join path) = .ok properties)
      (build : workshop.registry.buildNode (properties.insert Key.nodeId id) = .ok built) :
      Declares workshop path (.node id) (.node built)
  | edge {source destination name : String} {properties : PropertySet} {built : Edge}
      (role : workshop.settings.roleOf path = .edge source destination name)
      (loaded : workshop.load (workshop.settings.repositoryDir.join path) = .ok properties)
      (build :
        workshop.registry.buildEdge
          (((properties.insert Key.edgeSource source).insert Key.edgeDestination
            destination).insert Key.edgeName name) workshop.catalog = .ok built) :
      Declares workshop path (.edge (Edge.idOf source destination name)) (.edge built)

section Declarations

variable {workshop : Workshop} {path : Path}

theorem Declares.entryOf?_eq
    {entry : Graph.Entry} {element : Element}
    (hdeclares : workshop.Declares path entry element) :
    workshop.entryOf? path = some entry := by
  cases hdeclares with
  | node hrole _ _ => simp [entryOf?, hrole, PathRole.entry?]
  | edge hrole _ _ => simp [entryOf?, hrole, PathRole.entry?]

/-- The element that is built for a path in its role is the one that its file declares. -/
theorem element?_eq_some_iff
    {element : Element} :
    workshop.element? (workshop.settings.roleOf path) path = some element ↔
      ∃ entry, workshop.Declares path entry element := by
  constructor
  · intro helement
    obtain ⟨properties, hload, hbuilt⟩ := Option.bind_eq_some_iff.mp helement
    rw [toOption_eq_some_iff] at hload
    cases hrole : workshop.settings.roleOf path with
    | node id =>
        rw [hrole] at hbuilt
        obtain ⟨built, hbuild, hsome⟩ := Option.bind_eq_some_iff.mp hbuilt
        cases hsome
        exact ⟨_, .node hrole hload (toOption_eq_some_iff.mp hbuild)⟩
    | edge source destination name =>
        rw [hrole] at hbuilt
        obtain ⟨built, hbuild, hsome⟩ := Option.bind_eq_some_iff.mp hbuilt
        cases hsome
        exact ⟨_, .edge hrole hload (toOption_eq_some_iff.mp hbuild)⟩
    | skipped reason =>
        simp [hrole] at hbuilt
    | ignored =>
        simp [hrole] at hbuilt
  · rintro ⟨entry, hdeclares⟩
    refine Option.bind_eq_some_iff.mpr ?_
    cases hdeclares with
    | @node id properties built hrole hload hbuild =>
        refine ⟨properties, toOption_eq_some_iff.mpr hload, ?_⟩
        rw [hrole]
        exact Option.bind_eq_some_iff.mpr ⟨built, toOption_eq_some_iff.mpr hbuild, rfl⟩
    | @edge source destination name properties built hrole hload hbuild =>
        refine ⟨properties, toOption_eq_some_iff.mpr hload, ?_⟩
        rw [hrole]
        exact Option.bind_eq_some_iff.mpr ⟨built, toOption_eq_some_iff.mpr hbuild, rfl⟩

/-- A file declares at most one element, and for one entry. -/
theorem Declares.unique
    {entry entry' : Graph.Entry} {element element' : Element}
    (hdeclares : workshop.Declares path entry element)
    (hdeclares' : workshop.Declares path entry' element') :
    entry = entry' ∧ element = element' := by
  constructor
  · exact Option.some.inj (hdeclares.entryOf?_eq.symm.trans hdeclares'.entryOf?_eq)
  · have hbuilt := element?_eq_some_iff.mpr ⟨entry, hdeclares⟩
    have hbuilt' := element?_eq_some_iff.mpr ⟨entry', hdeclares'⟩
    exact Option.some.inj (hbuilt.symm.trans hbuilt')

theorem getElem?_edgeSource_stampEdge
    (properties : PropertySet)
    (source destination name : String) :
    (stampEdge properties source destination name)[Key.edgeSource]? = some source := by
  simp only [stampEdge, Std.ExtTreeMap.getElem?_insert]
  simp [Key.edgeSource, Key.edgeDestination, Key.edgeName]

theorem getElem?_edgeDestination_stampEdge
    (properties : PropertySet)
    (source destination name : String) :
    (stampEdge properties source destination name)[Key.edgeDestination]? = some destination := by
  simp only [stampEdge, Std.ExtTreeMap.getElem?_insert]
  simp [Key.edgeDestination, Key.edgeName]

theorem getElem?_edgeName_stampEdge
    (properties : PropertySet)
    (source destination name : String) :
    (stampEdge properties source destination name)[Key.edgeName]? = some name :=
  Std.ExtTreeMap.getElem?_insert_self

/-- The words of a path that are written over properties decide the id of the edge. -/
theorem declaredId_stampEdge
    (properties : PropertySet)
    {source destination name : String}
    (hsource : source ≠ "")
    (hdestination : destination ≠ "")
    (hname : name ≠ "") :
    Edge.declaredId (stampEdge properties source destination name) =
      .ok (Edge.idOf source destination name) := by
  apply Edge.declaredId_eq_ok
  · exact PropertySet.require_eq_ok_iff.mpr ⟨getElem?_edgeSource_stampEdge .., hsource⟩
  · exact PropertySet.require_eq_ok_iff.mpr ⟨getElem?_edgeDestination_stampEdge .., hdestination⟩
  · exact PropertySet.require_eq_ok_iff.mpr ⟨getElem?_edgeName_stampEdge .., hname⟩

/-- With builders of the library an element has the id that the path of its file tells. -/
theorem Declares.entry_eq
    (hbuiltin : workshop.registry.IsBuiltin)
    {entry : Graph.Entry} {element : Element}
    (hdeclares : workshop.Declares path entry element) :
    element.entry = entry := by
  cases hdeclares with
  | node hrole hload hbuild =>
      have hid := hbuiltin.id_of_buildNode hbuild
      rw [Std.ExtTreeMap.getElem?_insert_self] at hid
      rw [Element.entry, ← Option.some.inj hid]
  | @edge source destination name properties built hrole hload hbuild =>
      obtain ⟨hsource, hdestination, hname⟩ := Settings.words_ne_empty_of_roleOf_edge hrole
      have hid := hbuiltin.edgeId_eq (hbuiltin.lawful.edgeId_eq hbuild)
      have hstamp := declaredId_stampEdge properties hsource hdestination hname
      rw [Element.entry, ← Except.ok.inj (hstamp.symm.trans hid)]

end Declarations

section Operations

variable {workshop : Workshop} {path : Path}

theorem place_eq_put
    (graph : Graph)
    (element : Element) :
    place graph element = (graph.update (.put element)).2 := by
  cases element <;> rfl

/-- A file that declares an element is taken in. -/
theorem Declares.addPath_eq
    {entry : Graph.Entry} {element : Element}
    (hdeclares : workshop.Declares path entry element)
    (graph : Graph) :
    workshop.addPath graph path = (.applied, (graph.update (.put element)).2) := by
  have helement := element?_eq_some_iff.mpr ⟨entry, hdeclares⟩
  rw [← place_eq_put]
  unfold addPath
  cases hdeclares with
  | node hrole _ _ =>
      rw [hrole] at helement ⊢
      simp only [helement]
  | edge hrole _ _ =>
      rw [hrole] at helement ⊢
      simp only [helement]

/-- A file that should declare an element but does not is skipped. -/
theorem addPath_of_not_declares
    {entry : Graph.Entry}
    (hentry : workshop.entryOf? path = some entry)
    (hnone : ∀ element, ¬ workshop.Declares path entry element)
    (graph : Graph) :
    workshop.addPath graph path = (.skipped .loadFailed, graph) := by
  have helement : workshop.element? (workshop.settings.roleOf path) path = none := by
    rw [Option.eq_none_iff_forall_not_mem]
    intro element helement
    obtain ⟨entry', hdeclares⟩ := element?_eq_some_iff.mp helement
    have hsame := Option.some.inj (hentry.symm.trans hdeclares.entryOf?_eq)
    subst hsame
    exact hnone element hdeclares
  unfold addPath
  cases hrole : workshop.settings.roleOf path with
  | node id =>
      rw [hrole] at helement
      simp only [helement]
  | edge source destination name =>
      rw [hrole] at helement
      simp only [helement]
  | skipped reason =>
      simp [entryOf?, hrole, PathRole.entry?] at hentry
  | ignored =>
      simp [entryOf?, hrole, PathRole.entry?] at hentry

/-- The class of an edge is not told by a path. -/
theorem getElem?_edgeClass_stampEdge
    (source destination name : String) :
    (stampEdge ∅ source destination name)[Key.edgeClass]? = none := by
  simp [stampEdge, Key.edgeSource, Key.edgeDestination, Key.edgeName, Key.edgeClass]

/-- Forgetting a file empties the entry that its path names. -/
theorem removePath_eq
    (hbuiltin : workshop.registry.IsBuiltin)
    {entry : Graph.Entry}
    (hentry : workshop.entryOf? path = some entry)
    (graph : Graph) :
    workshop.removePath graph path = removal (graph.update (.clear entry)) := by
  unfold removePath
  cases hrole : workshop.settings.roleOf path with
  | node id =>
      simp only [entryOf?, hrole, PathRole.entry?, Option.some.injEq] at hentry
      subst hentry
      rfl
  | edge source destination name =>
      simp only [entryOf?, hrole, PathRole.entry?, Option.some.injEq] at hentry
      subst hentry
      obtain ⟨hsource, hdestination, hname⟩ := Settings.words_ne_empty_of_roleOf_edge hrole
      have hid := hbuiltin.edgeId_of_no_class
        (getElem?_edgeClass_stampEdge source destination name)
      rw [declaredId_stampEdge ∅ hsource hdestination hname] at hid
      simp only [hid]
      rfl
  | skipped reason =>
      simp [entryOf?, hrole, PathRole.entry?] at hentry
  | ignored =>
      simp [entryOf?, hrole, PathRole.entry?] at hentry

/-- What can become of an operation, by its outcome, and what the graph is afterwards. -/
inductive Effect (workshop : Workshop) (graph : Graph) : Operation → Outcome → Graph → Prop
  /-- The path is skipped, whatever was to be done about it. -/
  | skipped {operation : Operation} {reason : SkipReason}
      (role : workshop.settings.roleOf operation.path = .skipped reason) :
      Effect workshop graph operation (.skipped reason) graph
  | ignored {operation : Operation}
      (role : workshop.settings.roleOf operation.path = .ignored) :
      Effect workshop graph operation .ignored graph
  /-- The file declares nothing that can be built. -/
  | failed {path : Path} {entry : Graph.Entry}
      (named : workshop.entryOf? path = some entry)
      (undeclared : ∀ element, ¬ workshop.Declares path entry element) :
      Effect workshop graph (.add path) (.skipped .loadFailed) graph
  /-- The element that the file declares is kept under the entry that its path names. -/
  | added {path : Path} {entry : Graph.Entry} {element : Element} {next : Graph}
      (declared : workshop.Declares path entry element)
      (written : next.held = Function.update graph.held entry (some element)) :
      Effect workshop graph (.add path) .applied next
  /-- The entry that the path names is emptied. -/
  | removed {path : Path} {entry : Graph.Entry} {element : Element} {next : Graph}
      (named : workshop.entryOf? path = some entry)
      (present : graph.held entry = some element)
      (cleared : next.held = Function.update graph.held entry none) :
      Effect workshop graph (.remove path) .applied next
  | rejected {path : Path} {entry : Graph.Entry}
      (named : workshop.entryOf? path = some entry)
      (absent : graph.held entry = none) :
      Effect workshop graph (.remove path) .rejected graph

/-- A path names an entry, or its role says why it does not. -/
theorem entryOf?_cases
    (workshop : Workshop)
    (path : Path) :
    (∃ entry, workshop.entryOf? path = some entry) ∨
      (∃ reason, workshop.settings.roleOf path = .skipped reason) ∨
      workshop.settings.roleOf path = .ignored := by
  unfold entryOf?
  cases workshop.settings.roleOf path with
  | node id => exact Or.inl ⟨_, rfl⟩
  | edge source destination name => exact Or.inl ⟨_, rfl⟩
  | skipped reason => exact Or.inr (Or.inl ⟨reason, rfl⟩)
  | ignored => exact Or.inr (Or.inr rfl)

theorem perform_of_skipped
    {operation : Operation} {reason : SkipReason}
    (hrole : workshop.settings.roleOf operation.path = .skipped reason)
    (graph : Graph) :
    workshop.perform graph operation = (.skipped reason, graph) := by
  cases operation with
  | add path =>
      simp only [Operation.path] at hrole
      simp only [perform, addPath, hrole]
  | remove path =>
      simp only [Operation.path] at hrole
      simp only [perform, removePath, hrole]

theorem perform_of_ignored
    {operation : Operation}
    (hrole : workshop.settings.roleOf operation.path = .ignored)
    (graph : Graph) :
    workshop.perform graph operation = (.ignored, graph) := by
  cases operation with
  | add path =>
      simp only [Operation.path] at hrole
      simp only [perform, addPath, hrole]
  | remove path =>
      simp only [Operation.path] at hrole
      simp only [perform, removePath, hrole]

theorem perform_effect
    (hbuiltin : workshop.registry.IsBuiltin)
    (graph : Graph)
    (operation : Operation) :
    workshop.Effect graph operation (workshop.perform graph operation).1
      (workshop.perform graph operation).2 := by
  rcases workshop.entryOf?_cases operation.path with
    ⟨entry, hentry⟩ | ⟨reason, hrole⟩ | hrole
  · cases operation with
    | add path =>
        simp only [Operation.path] at hentry
        simp only [perform]
        by_cases hdeclared : ∃ element, workshop.Declares path entry element
        · obtain ⟨element, hdeclares⟩ := hdeclared
          rw [hdeclares.addPath_eq graph]
          refine .added hdeclares ?_
          rw [graph.held_put, hdeclares.entry_eq hbuiltin]
        · have hnone := not_exists.mp hdeclared
          rw [addPath_of_not_declares hentry hnone graph]
          exact .failed hentry hnone
    | remove path =>
        simp only [Operation.path] at hentry
        simp only [perform]
        rw [removePath_eq hbuiltin hentry graph, removal, graph.clear_fst]
        cases hheld : graph.held entry with
        | none =>
            rw [graph.clear_of_held_eq_none hheld]
            exact .rejected hentry hheld
        | some element =>
            exact .removed hentry hheld (graph.held_clear entry)
  · rw [perform_of_skipped hrole graph]
    exact .skipped hrole
  · rw [perform_of_ignored hrole graph]
    exact .ignored hrole

/-- An operation makes at most one update of the graph. -/
theorem exists_update_of_perform
    (workshop : Workshop)
    (graph : Graph)
    (operation : Operation) :
    (workshop.perform graph operation).2 = graph ∨
      ∃ change, (workshop.perform graph operation).2 = (graph.update change).2 := by
  cases operation with
  | add path =>
      simp only [perform, addPath]
      split
      · exact Or.inl rfl
      · exact Or.inl rfl
      · split
        · next element _ => exact Or.inr ⟨.put element, place_eq_put graph element⟩
        · exact Or.inl rfl
  | remove path =>
      simp only [perform, removePath]
      split
      · exact Or.inl rfl
      · exact Or.inl rfl
      · next id _ => exact Or.inr ⟨.clear (.node id), rfl⟩
      · split
        · next id _ => exact Or.inr ⟨.clear (.edge id), rfl⟩
        · exact Or.inl rfl

theorem reachable_perform
    (workshop : Workshop)
    {graph : Graph}
    (hreach : graph.Reachable)
    (operation : Operation) :
    (workshop.perform graph operation).2.Reachable := by
  rcases workshop.exists_update_of_perform graph operation with hsame | ⟨change, hchange⟩
  · rw [hsame]
    exact hreach
  · rw [hchange]
    exact hreach.update change

theorem reachable_performAll
    (workshop : Workshop)
    {graph : Graph}
    (hreach : graph.Reachable)
    (operations : List Operation) :
    (workshop.performAll graph operations).2.Reachable := by
  induction operations generalizing graph with
  | nil => exact hreach
  | cons operation rest ih => exact ih (workshop.reachable_perform hreach operation)

theorem reachable_process
    (workshop : Workshop)
    {graph : Graph}
    (hreach : graph.Reachable)
    (changes : List Change) :
    (workshop.process graph changes).2.Reachable :=
  workshop.reachable_performAll hreach (changes.flatMap Change.operations)

/-- An operation writes no other entry than that of its path. -/
theorem held_perform_of_ne
    (hbuiltin : workshop.registry.IsBuiltin)
    (graph : Graph)
    {operation : Operation} {entry : Graph.Entry}
    (hother : workshop.entryOf? operation.path ≠ some entry) :
    (workshop.perform graph operation).2.held entry = graph.held entry := by
  have heffect := perform_effect hbuiltin graph operation
  generalize (workshop.perform graph operation).1 = outcome at heffect
  generalize (workshop.perform graph operation).2 = next at heffect ⊢
  cases heffect with
  | skipped _ => rfl
  | ignored _ => rfl
  | failed _ _ => rfl
  | @added _ named _ _ hdeclared hwritten =>
      have hne : entry ≠ named := by
        rintro rfl
        exact hother hdeclared.entryOf?_eq
      rw [hwritten, Function.update_of_ne hne]
  | @removed _ named _ _ hnamed _ hcleared =>
      have hne : entry ≠ named := by
        rintro rfl
        exact hother hnamed
      rw [hcleared, Function.update_of_ne hne]
  | rejected _ _ => rfl

theorem held_performAll_of_ne
    (hbuiltin : workshop.registry.IsBuiltin)
    (graph : Graph)
    {operations : List Operation} {entry : Graph.Entry}
    (hothers : ∀ operation ∈ operations, workshop.entryOf? operation.path ≠ some entry) :
    (workshop.performAll graph operations).2.held entry = graph.held entry := by
  induction operations generalizing graph with
  | nil => rfl
  | cons operation rest ih =>
      have hfirst := held_perform_of_ne hbuiltin graph (hothers operation List.mem_cons_self)
      have hrest := ih (workshop.perform graph operation).2
        fun other hmem => hothers other (List.mem_cons_of_mem _ hmem)
      exact hrest.trans hfirst

end Operations

/-- A workshop in which one file can be read. -/
def depot : Workshop where
  settings := { repositoryUri := some "file:///topology.git", graphDir := "flowgraph" }
  registry := .ofMappings [("lake", "fs")]
  catalog := fun uri => .error (.notFound uri)
  load := fun path =>
    if path = .ofText "git-flowgraph/flowgraph/A/A.props" then
      .ok (.ofList
        [(Key.nodeClass, "lake"), (Key.nodeFileSystem, "ADL://store"), (Key.nodeId, "Z")])
    else .error (.unreadable path .notFound)

end Workshop

end HopRouting
