import HopRouting.Proofs.Sync.Effects

/-!
# Taking back an edge

A file that declared an edge is gone, and so the edge has to go.  Which builder made it, the
declaration said, which can no longer be read; the id of the edge is asked of the builder for base
edges, from the words of the path alone.

**Results.**  `takesBack_iff`: with lawful builders, forgetting a file right after it was taken in
takes its edge back exactly if the id that is told for the words of the path is the id that is told
for the whole declaration.  It is for a registry that only knows builders of the library
(`takesBack_of_isBuiltin`), but not for every registry of lawful builders (`not_takesBack`): where
base edges have ids of their own kind, an edge of another class stays.
-/

namespace HopRouting

namespace Workshop

/-- Forgetting the file at a path succeeds and takes the edge out of the graph. -/
def TakesBack (workshop : Workshop) (graph : Graph) (path : Path) (edge : Edge) : Prop :=
  ∃ removed : Graph,
    workshop.process graph [.deleted path] = (⟨[(path, .applied)]⟩, removed) ∧
    removed.held (.edge edge.id) = none

section Deletion

variable {workshop : Workshop} {graph : Graph} {path : Path}

/-- Following one new file is taking it in. -/
theorem process_added
    (workshop : Workshop)
    (graph : Graph)
    (path : Path) :
    workshop.process graph [.added path] =
      (⟨[(path, (workshop.addPath graph path).1)]⟩, (workshop.addPath graph path).2) := by
  rfl

/-- Following one file that is gone is forgetting it. -/
theorem process_deleted
    (workshop : Workshop)
    (graph : Graph)
    (path : Path) :
    workshop.process graph [.deleted path] =
      (⟨[(path, (workshop.removePath graph path).1)]⟩, (workshop.removePath graph path).2) := by
  rfl

/-- What was taken in was declared. -/
theorem exists_declares_of_addPath
    (happlied : (workshop.addPath graph path).1 = .applied) :
    ∃ entry element,
      workshop.Declares path entry element ∧
      (workshop.addPath graph path).2 = (graph.update (.put element)).2 := by
  rcases workshop.entryOf?_cases path with ⟨entry, hentry⟩ | ⟨reason, hrole⟩ | hrole
  · by_cases hdeclared : ∃ element, workshop.Declares path entry element
    · obtain ⟨element, hdeclares⟩ := hdeclared
      exact ⟨entry, element, hdeclares, by rw [hdeclares.addPath_eq graph]⟩
    · rw [addPath_of_not_declares hentry (not_exists.mp hdeclared) graph] at happlied
      cases happlied
  · have hskipped : workshop.addPath graph path = (.skipped reason, graph) :=
      @perform_of_skipped workshop (.add path) reason hrole graph
    rw [hskipped] at happlied
    cases happlied
  · have hignored : workshop.addPath graph path = (.ignored, graph) :=
      @perform_of_ignored workshop (.add path) hrole graph
    rw [hignored] at happlied
    cases happlied

/-- The edge that a file declared is kept under its own id. -/
theorem exists_edge_of_process_added
    {source destination name : String}
    (hrole : workshop.settings.roleOf path = .edge source destination name)
    {added : Graph}
    (hadded : workshop.process graph [.added path] = (⟨[(path, .applied)]⟩, added)) :
    ∃ properties, ∃ edge : Edge,
      workshop.load (workshop.settings.repositoryDir.join path) = .ok properties ∧
      workshop.registry.buildEdge (stampEdge properties source destination name)
        workshop.catalog = .ok edge ∧
      added.held (.edge edge.id) = some (.edge edge) := by
  rw [process_added] at hadded
  simp only [Prod.mk.injEq, Report.mk.injEq, List.cons.injEq, true_and, and_true] at hadded
  obtain ⟨happlied, rfl⟩ := hadded
  obtain ⟨entry, element, hdeclares, hgraph⟩ := exists_declares_of_addPath happlied
  rw [hgraph]
  cases hdeclares with
  | node hnode _ _ =>
      rw [hrole] at hnode
      cases hnode
  | @edge _ _ _ properties built hedge hload hbuild =>
      rw [hrole] at hedge
      cases hedge
      refine ⟨properties, built, hload, hbuild, ?_⟩
      rw [Graph.held_put]
      exact Function.update_self ..

/-- An edge is taken back exactly if the id told for the words of its path is its own. -/
theorem takesBack_iff_edgeId
    {source destination name : String}
    (hrole : workshop.settings.roleOf path = .edge source destination name)
    {edge : Edge}
    (hheld : graph.held (.edge edge.id) = some (.edge edge)) :
    workshop.TakesBack graph path edge ↔
      workshop.registry.edgeId (stampEdge ∅ source destination name) = .ok edge.id := by
  constructor
  · rintro ⟨removed, hremoved, hgone⟩
    rw [process_deleted, removePath, hrole] at hremoved
    cases hid : workshop.registry.edgeId (stampEdge ∅ source destination name) with
    | error cause =>
        simp [hid] at hremoved
    | ok id =>
        simp only [hid, removal, Prod.mk.injEq] at hremoved
        have hcleared := graph.held_clear (.edge id)
        by_contra hother
        have hne : Graph.Entry.edge edge.id ≠ .edge id := by
          rintro ⟨rfl⟩
          exact hother rfl
        have hstill : removed.held (.edge edge.id) = some (.edge edge) := by
          rw [← hremoved.2, ← hheld]
          exact (congrFun hcleared _).trans (Function.update_of_ne hne ..)
        rw [hgone] at hstill
        cases hstill
  · intro hid
    refine ⟨(graph.update (.clear (.edge edge.id))).2, ?_, ?_⟩
    · have hpresent : (graph.removeEdge edge.id).1 = true := by
        have hfst := graph.clear_fst (.edge edge.id)
        rw [hheld] at hfst
        exact hfst
      rw [process_deleted, removePath, hrole]
      simp only [hid, removal, hpresent, if_true]
      rfl
    · rw [Graph.held_clear]
      exact Function.update_self ..

/-- Forgetting the file of an edge right after it was taken in takes the edge back exactly if the
words of the path tell the id that the whole declaration tells. -/
theorem takesBack_iff
    (hlawful : workshop.registry.Lawful)
    {source destination name : String}
    (hrole : workshop.settings.roleOf path = .edge source destination name)
    {added : Graph}
    (hadded : workshop.process graph [.added path] = (⟨[(path, .applied)]⟩, added)) :
    ∃ properties, ∃ edge : Edge,
      workshop.load (workshop.settings.repositoryDir.join path) = .ok properties ∧
      workshop.registry.buildEdge (stampEdge properties source destination name)
        workshop.catalog = .ok edge ∧
      added.held (.edge edge.id) = some (.edge edge) ∧
      (workshop.TakesBack added path edge ↔
        workshop.registry.edgeId (stampEdge ∅ source destination name) =
          workshop.registry.edgeId (stampEdge properties source destination name)) := by
  obtain ⟨properties, edge, hload, hbuild, hheld⟩ := exists_edge_of_process_added hrole hadded
  refine ⟨properties, edge, hload, hbuild, hheld, ?_⟩
  rw [hlawful.edgeId_eq hbuild]
  exact takesBack_iff_edgeId hrole hheld

/-- With builders of the library, whatever classes they stand for, the edge is taken back. -/
theorem takesBack_of_isBuiltin
    (hbuiltin : workshop.registry.IsBuiltin)
    {source destination name : String}
    (hrole : workshop.settings.roleOf path = .edge source destination name)
    {added : Graph}
    (hadded : workshop.process graph [.added path] = (⟨[(path, .applied)]⟩, added)) :
    ∃ edge : Edge,
      added.held (.edge edge.id) = some (.edge edge) ∧ workshop.TakesBack added path edge := by
  obtain ⟨properties, edge, -, hbuild, hheld⟩ := exists_edge_of_process_added hrole hadded
  refine ⟨edge, hheld, (takesBack_iff_edgeId hrole hheld).mpr ?_⟩
  obtain ⟨hsource, hdestination, hname⟩ := Settings.words_ne_empty_of_roleOf_edge hrole
  have hid := hbuiltin.edgeId_eq (hbuiltin.lawful.edgeId_eq hbuild)
  rw [declaredId_stampEdge properties hsource hdestination hname] at hid
  rw [hbuiltin.edgeId_of_no_class (getElem?_edgeClass_stampEdge source destination name),
    declaredId_stampEdge ∅ hsource hdestination hname]
  exact hid

end Deletion

section TwoKinds

/-- The id of an edge that has an arrow in it. -/
def arrowId (properties : PropertySet) : Except DeclarationError String := do
  let source ← properties.require Key.edgeSource
  let destination ← properties.require Key.edgeDestination
  let name ← properties.require Key.edgeName
  pure (source ++ "->" ++ destination ++ ":" ++ name)

/-- Builds base edges that have an arrow in their ids. -/
def arrowBuilder : EdgeBuilder where
  className := baseClass
  build properties _ := do
    let id ← arrowId properties
    let source ← properties.require Key.edgeSource
    let destination ← properties.require Key.edgeDestination
    let name ← properties.require Key.edgeName
    let templateUri ← properties.require Key.edgeTemplate
    pure { Edge.plain source destination name templateUri [] with id }
  edgeId := arrowId

/-- Builds plain edges, which have the usual ids. -/
def plainBuilder : EdgeBuilder where
  className := "plain"
  build properties _ := do
    let source ← properties.require Key.edgeSource
    let destination ← properties.require Key.edgeDestination
    let name ← properties.require Key.edgeName
    pure (Edge.plain source destination name "plain" [])

theorem lawful_arrowBuilder :
    arrowBuilder.Lawful := by
  intro properties catalog edge hbuild
  simp only [arrowBuilder, bind_eq_ok_iff] at hbuild
  obtain ⟨id, hid, source, -, destination, -, name, -, uri, -, hedge⟩ := hbuild
  cases hedge
  exact hid

theorem lawful_plainBuilder :
    plainBuilder.Lawful := by
  intro properties catalog edge hbuild
  simp only [plainBuilder, bind_eq_ok_iff] at hbuild
  obtain ⟨source, hsource, destination, hdestination, name, hname, hedge⟩ := hbuild
  cases hedge
  exact Edge.declaredId_eq_ok hsource hdestination hname

/-- A workshop for two kinds of edges, in which one file can be read. -/
def junction : Workshop where
  settings := { repositoryUri := some "file:///topology.git", graphDir := "flowgraph" }
  registry := (Registry.builtin.registerEdge arrowBuilder).registerEdge plainBuilder
  catalog := fun uri => .error (.notFound uri)
  load := fun path =>
    if path = .ofText "git-flowgraph/flowgraph/A/B/e.properties" then
      .ok (.ofList [(Key.edgeClass, "plain")])
    else .error (.unreadable path .notFound)

/-- The path of a plain edge. -/
def plainPath : Path := .ofText "flowgraph/A/B/e.properties"

theorem lawful_junction :
    junction.registry.Lawful := by
  intro className builder hheld
  simp only [junction, Registry.registerEdge, Std.ExtTreeMap.getElem?_insert] at hheld
  split at hheld
  · cases hheld
    exact lawful_plainBuilder
  · split at hheld
    · cases hheld
      exact lawful_arrowBuilder
    · rw [Registry.isBuiltin_builtin.edge className builder hheld]
      exact EdgeBuilder.lawful_base

theorem process_added_junction :
    junction.process .empty [.added plainPath] =
      (⟨[(plainPath, .applied)]⟩, (junction.process .empty [.added plainPath]).2) := by
  have happlied : (junction.addPath .empty plainPath).1 = .applied := by decide
  rw [process_added, happlied]

theorem takesBack_iff_junction :
    junction.registry.Lawful ∧
      junction.settings.roleOf plainPath = .edge "A" "B" "e" ∧
      junction.process .empty [.added plainPath] =
        (⟨[(plainPath, .applied)]⟩, (junction.process .empty [.added plainPath]).2) ∧
      ∃ properties, ∃ edge : Edge,
        junction.load (junction.settings.repositoryDir.join plainPath) = .ok properties ∧
        junction.registry.buildEdge (stampEdge properties "A" "B" "e") junction.catalog =
          .ok edge ∧
        (junction.process .empty [.added plainPath]).2.held (.edge edge.id) = some (.edge edge) ∧
        (junction.TakesBack (junction.process .empty [.added plainPath]).2 plainPath edge ↔
          junction.registry.edgeId (stampEdge ∅ "A" "B" "e") =
            junction.registry.edgeId (stampEdge properties "A" "B" "e")) := by
  have hrole : junction.settings.roleOf plainPath = .edge "A" "B" "e" := by decide
  exact ⟨lawful_junction, hrole, process_added_junction,
    takesBack_iff lawful_junction hrole process_added_junction⟩

/-- The builder of base edges, which gives ids of its own kind, is asked for the id of an edge that
the other builder made: the edge stays. -/
theorem not_takesBack :
    ¬ ∀ (workshop : Workshop) (graph added : Graph) (path : Path)
        (source destination name : String) (edge : Edge),
        workshop.registry.Lawful →
        graph.Reachable →
        workshop.settings.roleOf path = .edge source destination name →
        workshop.process graph [.added path] = (⟨[(path, .applied)]⟩, added) →
        workshop.Declares path (.edge (Edge.idOf source destination name)) (.edge edge) →
        workshop.TakesBack added path edge := by
  intro htakes
  have hrole : junction.settings.roleOf plainPath = .edge "A" "B" "e" := by decide
  have hload :
      junction.load (junction.settings.repositoryDir.join plainPath) =
        .ok (.ofList [(Key.edgeClass, "plain")]) := by
    rfl
  have hdeclares :
      junction.Declares plainPath (.edge (Edge.idOf "A" "B" "e"))
        (.edge (Edge.plain "A" "B" "e" "plain" [])) :=
    .edge hrole hload rfl
  obtain ⟨removed, hremoved, -⟩ :=
    htakes junction .empty _ plainPath "A" "B" "e" _ lawful_junction ⟨[], rfl⟩ hrole
      process_added_junction hdeclares
  have hrejected :
      (junction.removePath (junction.process .empty [.added plainPath]).2 plainPath).1 =
        .rejected := by
    decide
  rw [process_deleted, hrejected] at hremoved
  simp at hremoved

end TwoKinds

end Workshop

end HopRouting
