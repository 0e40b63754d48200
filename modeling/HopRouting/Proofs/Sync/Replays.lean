import HopRouting.Proofs.Sync.Batches

/-!
# Following a batch again

A file that is taken in is read, and what it declares is built, without a look at the graph.  So a
batch that only takes in files writes the same elements whenever it is followed, as long as the
files and the templates stay as they are.

**One entry.**  `held_takeInAll_cases`: such a batch leaves an entry as it is in every graph, or it
leaves one and the same element under it in every graph.

**Result.**  `process_replay`: following the batch a second time leaves the graph, with its index,
as the first time did, and has the same outcomes.  The builders may be any.  Files may declare
elements for one entry, and an edge may be moved from node to node on the way.
-/

namespace HopRouting

namespace Change

/-- The change only takes in a file. -/
def OnlyTakesIn (change : Change) : Prop :=
  change.kind = .add ∨ change.kind = .modify ∨ change.kind = .copy

instance (change : Change) : Decidable change.OnlyTakesIn :=
  inferInstanceAs (Decidable (_ ∨ _))

theorem OnlyTakesIn.operations_eq
    {change : Change}
    (honly : change.OnlyTakesIn) :
    change.operations = change.new.toList.map Operation.add := by
  unfold operations
  rcases honly with hkind | hkind | hkind
  · rw [hkind]
  · rw [hkind]
  · rw [hkind]

/-- Batches that only take in files are lists of files to take in. -/
theorem flatMap_operations_of_onlyTakesIn
    {changes : List Change}
    (honly : ∀ change ∈ changes, change.OnlyTakesIn) :
    changes.flatMap operations =
      (changes.flatMap fun change => change.new.toList).map Operation.add := by
  rw [List.map_flatMap]
  exact List.flatMap_congr fun change hchange => (honly change hchange).operations_eq

end Change

namespace Workshop

section Replays

variable (workshop : Workshop)

/-- Files are taken in with the same outcome into whatever graph, and put the same element there, if
any. -/
theorem exists_addPath_eq
    (path : Path) :
    ∃ outcome, ∃ element : Option Element, ∀ graph,
      workshop.addPath graph path = (outcome, element.elim graph (place graph)) := by
  rcases workshop.entryOf?_cases path with ⟨named, hnamed⟩ | ⟨reason, hrole⟩ | hrole
  · by_cases hdeclared : ∃ element, workshop.Declares path named element
    · obtain ⟨element, hdeclares⟩ := hdeclared
      refine ⟨.applied, some element, fun graph => ?_⟩
      rw [hdeclares.addPath_eq graph, Option.elim_some, place_eq_put]
    · exact ⟨.skipped .loadFailed, none,
        addPath_of_not_declares hnamed (not_exists.mp hdeclared)⟩
  · exact ⟨.skipped reason, none, @perform_of_skipped workshop (.add path) reason hrole⟩
  · exact ⟨.ignored, none, @perform_of_ignored workshop (.add path) hrole⟩

/-- Taking in a file leaves an entry as it is in every graph, or leaves one element under it. -/
theorem held_addPath_cases
    (path : Path)
    (entry : Graph.Entry) :
    (∀ graph, (workshop.addPath graph path).2.held entry = graph.held entry) ∨
      ∃ element, ∀ graph, (workshop.addPath graph path).2.held entry = some element := by
  obtain ⟨outcome, built, hadd⟩ := workshop.exists_addPath_eq path
  simp only [hadd]
  cases built with
  | none =>
      exact Or.inl fun _ => rfl
  | some element =>
      simp only [Option.elim_some, place_eq_put, Graph.held_put]
      by_cases hentry : entry = element.entry
      · subst hentry
        exact Or.inr ⟨element, fun _ => Function.update_self ..⟩
      · exact Or.inl fun _ => Function.update_of_ne hentry ..

/-- Taking in files leaves an entry as it is in every graph, or leaves one element under it. -/
theorem held_takeInAll_cases
    (paths : List Path)
    (entry : Graph.Entry) :
    (∀ graph,
      (workshop.performAll graph (paths.map Operation.add)).2.held entry = graph.held entry) ∨
    ∃ element, ∀ graph,
      (workshop.performAll graph (paths.map Operation.add)).2.held entry = some element := by
  induction paths with
  | nil =>
      exact Or.inl fun _ => rfl
  | cons path rest ih =>
      rcases ih with hrest | ⟨element, hrest⟩
      · rcases workshop.held_addPath_cases path entry with hfirst | ⟨element, hfirst⟩
        · exact Or.inl fun graph => (hrest _).trans (hfirst graph)
        · exact Or.inr ⟨element, fun graph => (hrest _).trans (hfirst graph)⟩
      · exact Or.inr ⟨element, fun graph => hrest _⟩

theorem outcomes_takeInAll
    (paths : List Path)
    (graph other : Graph) :
    (workshop.performAll graph (paths.map Operation.add)).1 =
      (workshop.performAll other (paths.map Operation.add)).1 := by
  induction paths generalizing graph other with
  | nil =>
      rfl
  | cons path rest ih =>
      obtain ⟨outcome, built, hadd⟩ := workshop.exists_addPath_eq path
      have hsame : (workshop.addPath graph path).1 = (workshop.addPath other path).1 := by
        rw [hadd, hadd]
      have hrest := ih (workshop.addPath graph path).2 (workshop.addPath other path).2
      simp only [List.map_cons, performAll, perform, hsame, hrest]

/-- Taking in the same files once more changes nothing. -/
theorem held_takeInAll_again
    (paths : List Path)
    (graph : Graph) :
    (workshop.performAll (workshop.performAll graph (paths.map Operation.add)).2
        (paths.map Operation.add)).2.held =
      (workshop.performAll graph (paths.map Operation.add)).2.held := by
  funext entry
  rcases workshop.held_takeInAll_cases paths entry with hkept | ⟨element, hwritten⟩
  · exact hkept _
  · rw [hwritten, hwritten]

/-- A batch that only takes in files leaves the graph and reports outcomes when it is followed again
as it did before. -/
theorem process_replay
    {graph : Graph}
    (hreach : graph.Reachable)
    {changes : List Change}
    (honly : ∀ change ∈ changes, change.OnlyTakesIn) :
    workshop.process (workshop.process graph changes).2 changes =
      workshop.process graph changes := by
  have hadds := Change.flatMap_operations_of_onlyTakesIn honly
  have hfirst := workshop.reachable_process hreach changes
  have hsecond := workshop.reachable_process hfirst changes
  have hgraph :
      (workshop.process (workshop.process graph changes).2 changes).2 =
        (workshop.process graph changes).2 := by
    apply hsecond.eq_of_held_eq hfirst
    simp only [process, hadds]
    exact workshop.held_takeInAll_again _ graph
  have hreport :
      (workshop.process (workshop.process graph changes).2 changes).1 =
        (workshop.process graph changes).1 := by
    simp only [process, hadds]
    exact congrArg Report.mk (workshop.outcomes_takeInAll _ _ graph)
  exact Prod.ext hreport hgraph

end Replays

section Crossroads

/-- Builds base edges whose id is their name alone. -/
def nameBuilder : EdgeBuilder where
  className := baseClass
  build properties _ := do
    let source ← properties.require Key.edgeSource
    let destination ← properties.require Key.edgeDestination
    let name ← properties.require Key.edgeName
    pure { Edge.plain source destination name "" [] with id := name }
  edgeId properties := properties.require Key.edgeName

/-- A workshop in which edges of one name are one edge, wherever they lead. -/
def crossroads : Workshop where
  settings := { repositoryUri := some "file:///topology.git", graphDir := "flowgraph" }
  registry := Registry.builtin.registerEdge nameBuilder
  catalog := fun uri => .error (.notFound uri)
  load := fun _ => .ok ∅

/-- Two files of one edge, the second of which moves it to another node, and a file that declares no
node. -/
def crossroadsChanges : List Change :=
  [.added (.ofText "flowgraph/A/B/e.properties"), .modified (.ofText "flowgraph/C/D/e.properties"),
    .added (.ofText "flowgraph/A/A.properties")]

theorem process_replay_crossroads :
    (∀ change ∈ crossroadsChanges, change.OnlyTakesIn) ∧
      crossroads.process (crossroads.process .empty crossroadsChanges).2 crossroadsChanges =
        crossroads.process .empty crossroadsChanges ∧
      (crossroads.process .empty crossroadsChanges).1.outcomes.map Prod.snd =
        [.applied, .applied, .skipped .loadFailed] ∧
      ((crossroads.process .empty crossroadsChanges).2.departures "C").map Edge.id = ["e"] ∧
      (crossroads.process (crossroads.process .empty crossroadsChanges).2
        (crossroadsChanges.take 1)).2.departures "C" = [] := by
  have hempty : Graph.empty.Reachable := ⟨[], rfl⟩
  have honly : ∀ change ∈ crossroadsChanges, change.OnlyTakesIn := by decide
  exact ⟨honly, crossroads.process_replay hempty honly, by decide +kernel, by decide +kernel,
    by decide +kernel⟩

end Crossroads

end Workshop

end HopRouting
