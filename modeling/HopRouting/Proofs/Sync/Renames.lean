import HopRouting.Proofs.Sync.Effects

/-!
# Changes whose new file fails

A change takes in one file at most, and before that it may forget another one.  The file that is
taken in may fail to be read, and what it says may fail to be built; then it adds nothing.  But what
was forgotten before it stays forgotten.

**Shape.**  `Change.operations_eq`: every change forgets a file or none and then takes in a file or
none.

**Result.**  `held_of_failed_iff`: where the new file of a change fails, the graph holds afterwards
what it held before under the entry of that file, unless the change is a renaming, its old path
names the same entry, and there was something under it (`not_held_of_failed`).
-/

namespace HopRouting

namespace Change

/-- The file that a change forgets, first of all. -/
def forgotten? (change : Change) : Option Path :=
  match change.kind with
  | .add | .modify | .copy => none
  | .delete | .rename => change.old

/-- The file that a change takes in, last of all. -/
def takenIn? (change : Change) : Option Path :=
  match change.kind with
  | .add | .modify | .copy | .rename => change.new
  | .delete => none

theorem operations_eq
    (change : Change) :
    change.operations =
      change.forgotten?.toList.map Operation.remove ++
        change.takenIn?.toList.map Operation.add := by
  obtain ⟨kind, old, new⟩ := change
  cases kind with
  | add => rfl
  | modify => rfl
  | copy => rfl
  | delete => exact (List.append_nil _).symm
  | rename => rfl

end Change

namespace Workshop

section Failures

variable {workshop : Workshop} {graph : Graph} {change : Change} {path : Path}

/-- A change that takes in a file does so in the graph that its old file has been taken from. -/
theorem process_of_takenIn
    (hnew : change.takenIn? = some path) :
    ∃ forgotten,
      (workshop.process graph [change]).1.outcomes =
        forgotten ++
          [(path, (workshop.addPath
            (workshop.performAll graph (change.forgotten?.toList.map .remove)).2 path).1)] ∧
      (workshop.process graph [change]).2 =
        (workshop.addPath
          (workshop.performAll graph (change.forgotten?.toList.map .remove)).2 path).2 := by
  have hoperations := change.operations_eq
  rw [hnew, Option.toList_some, List.map_singleton] at hoperations
  simp only [process, List.flatMap_singleton, hoperations]
  cases change.forgotten? with
  | none => exact ⟨[], rfl, rfl⟩
  | some old => exact ⟨[(old, (workshop.removePath graph old).1)], rfl, rfl⟩

/-- A new file that fails leaves the graph as it is without the old one. -/
theorem process_of_failed
    {entry : Graph.Entry}
    (hnew : change.takenIn? = some path)
    (hentry : workshop.entryOf? path = some entry)
    (hfailed :
      (workshop.process graph [change]).1.outcomes.getLast? =
        some (path, .skipped .loadFailed)) :
    (workshop.process graph [change]).2 =
      (workshop.performAll graph (change.forgotten?.toList.map .remove)).2 := by
  obtain ⟨forgotten, houtcomes, hgraph⟩ := @process_of_takenIn workshop graph change path hnew
  rw [houtcomes, List.getLast?_concat, Option.some.injEq, Prod.mk.injEq] at hfailed
  rw [hgraph]
  by_cases hdeclared : ∃ element, workshop.Declares path entry element
  · obtain ⟨element, hdeclares⟩ := hdeclared
    rw [hdeclares.addPath_eq] at hfailed
    cases hfailed.2
  · rw [addPath_of_not_declares hentry (not_exists.mp hdeclared)]

/-- Where the new file of a change fails, everything stays as it was if the change forgets no file;
and the entry that the new file is for stays as it was exactly if there was nothing under it to
lose, or the old file was not for it. -/
theorem held_of_failed_iff
    {mappings : List (String × String)}
    (hregistry : workshop.registry = .ofMappings mappings)
    {entry : Graph.Entry}
    (hnew : change.takenIn? = some path)
    (hentry : workshop.entryOf? path = some entry)
    (hfailed :
      (workshop.process graph [change]).1.outcomes.getLast? =
        some (path, .skipped .loadFailed)) :
    (change.forgotten? = none → (workshop.process graph [change]).2 = graph) ∧
      ((workshop.process graph [change]).2.held entry = graph.held entry ↔
        ∀ old, change.forgotten? = some old → workshop.entryOf? old = some entry →
          graph.held entry = none) := by
  have hbuiltin : workshop.registry.IsBuiltin := by
    rw [hregistry]
    exact Registry.isBuiltin_ofMappings mappings
  rw [process_of_failed hnew hentry hfailed]
  cases hforgotten : change.forgotten? with
  | none =>
      exact ⟨fun _ => rfl, fun _ => by simp, fun _ => rfl⟩
  | some old =>
      refine ⟨by simp, ?_⟩
      simp only [Option.some.injEq, forall_eq', Option.toList_some, List.map_singleton, performAll,
        perform]
      by_cases hsame : workshop.entryOf? old = some entry
      · rw [removePath_eq hbuiltin hsame graph, removal, Graph.held_clear, Function.update_self]
        simp only [hsame, true_imp_iff]
        exact eq_comm
      · have hkept : (workshop.removePath graph old).2.held entry = graph.held entry :=
          @held_perform_of_ne workshop hbuiltin graph (.remove old) entry hsame
        simp only [hsame, false_imp_iff, iff_true]
        exact hkept

end Failures

section Annex

/-- A workshop of the builders of the library, in which the files of two nodes can be read under one
of the extensions. -/
def annex : Workshop where
  settings := { repositoryUri := some "file:///topology.git", graphDir := "flowgraph" }
  registry := .builtin
  catalog := fun uri => .error (.notFound uri)
  load := fun path =>
    if path = .ofText "git-flowgraph/flowgraph/A/A.properties" ∨
        path = .ofText "git-flowgraph/flowgraph/B/B.properties" then
      .ok (.ofList [(Key.nodePlatform, "hdfs")])
    else .error (.unreadable path .notFound)

/-- Both nodes were taken in. -/
def annexGraph : Graph :=
  (annex.process .empty
    [.added (.ofText "flowgraph/A/A.properties"), .added (.ofText "flowgraph/B/B.properties")]).2

/-- The file of one node becomes a file of the other one, which cannot be read. -/
def annexMove : Change :=
  ⟨.rename, some (.ofText "flowgraph/B/B.properties"), some (.ofText "flowgraph/A/A.props")⟩

theorem held_of_failed_iff_annex :
    annexMove.takenIn? = some (.ofText "flowgraph/A/A.props") ∧
      annex.entryOf? (.ofText "flowgraph/A/A.props") = some (.node "A") ∧
      (annex.process annexGraph [annexMove]).1.outcomes.getLast? =
        some (.ofText "flowgraph/A/A.props", .skipped .loadFailed) ∧
      (annexGraph.held (.node "A")).isSome = true ∧
      (annex.process annexGraph [annexMove]).2.held (.node "A") = annexGraph.held (.node "A") := by
  have hnew : annexMove.takenIn? = some (.ofText "flowgraph/A/A.props") := rfl
  have hentry : annex.entryOf? (.ofText "flowgraph/A/A.props") = some (.node "A") := by decide
  have hfailed :
      (annex.process annexGraph [annexMove]).1.outcomes.getLast? =
        some (.ofText "flowgraph/A/A.props", .skipped .loadFailed) := by
    decide +kernel
  have hother : annex.entryOf? (.ofText "flowgraph/B/B.properties") ≠ some (.node "A") := by decide
  obtain ⟨-, hiff⟩ := @held_of_failed_iff annex annexGraph annexMove _ [] rfl _ hnew hentry hfailed
  refine ⟨hnew, hentry, hfailed, by decide +kernel, hiff.mpr ?_⟩
  rintro old ⟨rfl⟩ hold
  exact absurd hold hother

/-- Where a file only gets another extension and cannot be read any more, its node is lost. -/
theorem not_held_of_failed :
    ¬ ∀ (workshop : Workshop) (graph : Graph) (change : Change) (path : Path)
        (entry : Graph.Entry),
        workshop.registry = .builtin →
        graph.Reachable →
        change.takenIn? = some path →
        workshop.entryOf? path = some entry →
        (workshop.process graph [change]).1.outcomes.getLast? =
          some (path, .skipped .loadFailed) →
        (workshop.process graph [change]).2.held entry = graph.held entry := by
  intro hkept
  have hempty : Graph.empty.Reachable := ⟨[], rfl⟩
  have hreach : annexGraph.Reachable := annex.reachable_process hempty _
  have hsame :=
    hkept annex annexGraph
      ⟨.rename, some (.ofText "flowgraph/A/A.properties"), some (.ofText "flowgraph/A/A.props")⟩
      (.ofText "flowgraph/A/A.props") (.node "A") rfl hreach rfl (by decide) (by decide +kernel)
  have hlost :
      ((annex.process annexGraph
        [⟨.rename, some (.ofText "flowgraph/A/A.properties"),
          some (.ofText "flowgraph/A/A.props")⟩]).2.held (.node "A")).isSome = false := by
    decide +kernel
  have hheld : (annexGraph.held (.node "A")).isSome = true := by decide +kernel
  rw [hsame, hheld] at hlost
  cases hlost

end Annex

end Workshop

end HopRouting
