import HopRouting.Proofs.Sync.Batches

/-!
# Changes of different entries

A change is about the entries that the paths of its operations name.  Nothing else of the graph
decides what becomes of it, and it writes nothing else.

**One change.**  `performAll_congr`: in two graphs that hold the same under the entries of some
operations, the operations have the same outcomes; and an entry that the graphs agree on before they
agree on afterwards.

**A batch.**  If no two changes of a batch are about one entry, each of them does what it would have
done alone, in the graph that the batch began with (`held_process_of_independent`,
`outcomes_process_of_independent`).  So the order of the batch makes no difference
(`process_perm`): neither for what the graph holds nor for its index, since a reachable graph is
decided by what it holds.
-/

namespace HopRouting

namespace Workshop

section Agreement

variable {workshop : Workshop} {graph other : Graph}

/-- What becomes of an operation is decided by the entry of its path; and agreement of two graphs
on any entry outlasts the operation. -/
theorem perform_congr
    (hbuiltin : workshop.registry.IsBuiltin)
    {operation : Operation}
    (hagree :
      ∀ entry, workshop.entryOf? operation.path = some entry →
        graph.held entry = other.held entry) :
    (workshop.perform graph operation).1 = (workshop.perform other operation).1 ∧
      ∀ entry, graph.held entry = other.held entry →
        (workshop.perform graph operation).2.held entry =
          (workshop.perform other operation).2.held entry := by
  rcases workshop.entryOf?_cases operation.path with
    ⟨named, hnamed⟩ | ⟨reason, hrole⟩ | hrole
  · have hsame := hagree named hnamed
    cases operation with
    | add path =>
        simp only [Operation.path] at hnamed
        simp only [perform]
        by_cases hdeclared : ∃ element, workshop.Declares path named element
        · obtain ⟨element, hdeclares⟩ := hdeclared
          rw [hdeclares.addPath_eq graph, hdeclares.addPath_eq other]
          refine ⟨rfl, ?_⟩
          intro entry hentry
          rw [Graph.held_put, Graph.held_put, Function.update_apply, Function.update_apply, hentry]
        · have hnone := not_exists.mp hdeclared
          rw [addPath_of_not_declares hnamed hnone graph,
            addPath_of_not_declares hnamed hnone other]
          exact ⟨rfl, fun _ hentry => hentry⟩
    | remove path =>
        simp only [Operation.path] at hnamed
        simp only [perform]
        rw [removePath_eq hbuiltin hnamed graph, removePath_eq hbuiltin hnamed other, removal,
          removal, Graph.clear_fst, Graph.clear_fst, hsame]
        refine ⟨rfl, ?_⟩
        intro entry hentry
        rw [Graph.held_clear, Graph.held_clear, Function.update_apply, Function.update_apply,
          hentry]
  · rw [perform_of_skipped hrole graph, perform_of_skipped hrole other]
    exact ⟨rfl, fun _ hentry => hentry⟩
  · rw [perform_of_ignored hrole graph, perform_of_ignored hrole other]
    exact ⟨rfl, fun _ hentry => hentry⟩

theorem performAll_congr
    (hbuiltin : workshop.registry.IsBuiltin)
    {operations : List Operation}
    (hagree :
      ∀ operation ∈ operations, ∀ entry, workshop.entryOf? operation.path = some entry →
        graph.held entry = other.held entry) :
    (workshop.performAll graph operations).1 = (workshop.performAll other operations).1 ∧
      ∀ entry, graph.held entry = other.held entry →
        (workshop.performAll graph operations).2.held entry =
          (workshop.performAll other operations).2.held entry := by
  induction operations generalizing graph other with
  | nil =>
      exact ⟨rfl, fun _ hentry => hentry⟩
  | cons operation rest ih =>
      obtain ⟨houtcome, hkept⟩ := perform_congr hbuiltin (hagree operation List.mem_cons_self)
      obtain ⟨houtcomes, hrest⟩ :=
        @ih (workshop.perform graph operation).2 (workshop.perform other operation).2
          fun later hlater entry hentry =>
            hkept entry (hagree later (List.mem_cons_of_mem _ hlater) entry hentry)
      refine ⟨?_, fun entry hentry => hrest entry (hkept entry hentry)⟩
      simp only [performAll, houtcome, houtcomes]

end Agreement

/-- The entries that a change is about: those that the paths of its operations name. -/
def entriesOf (workshop : Workshop) (change : Change) : List Graph.Entry :=
  change.operations.filterMap fun operation => workshop.entryOf? operation.path

/-- No entry is one that both changes are about. -/
def Independent (workshop : Workshop) (change other : Change) : Prop :=
  ∀ entry ∈ workshop.entriesOf change, entry ∉ workshop.entriesOf other

instance (workshop : Workshop) : DecidableRel workshop.Independent :=
  fun change _ => inferInstanceAs (Decidable (∀ entry ∈ workshop.entriesOf change, _))

/-- What becomes of the operations of a change that is followed alone. -/
def outcomesAlone (workshop : Workshop) (graph : Graph) (change : Change) :
    List (Path × Outcome) :=
  (workshop.process graph [change]).1.outcomes

section Changes

variable {workshop : Workshop} {graph : Graph}

theorem Independent.symm
    {change other : Change}
    (hindependent : workshop.Independent change other) :
    workshop.Independent other change :=
  fun entry hother hchange => hindependent entry hchange hother

theorem outcomes_performAll_append
    (workshop : Workshop)
    (graph : Graph)
    (first second : List Operation) :
    (workshop.performAll graph (first ++ second)).1 =
      (workshop.performAll graph first).1 ++
        (workshop.performAll (workshop.performAll graph first).2 second).1 := by
  induction first generalizing graph with
  | nil => rfl
  | cons operation rest ih =>
      exact congrArg (_ :: ·) (ih (workshop.perform graph operation).2)

/-- The first change is followed alone, and the others in the graph that it leaves. -/
theorem outcomes_process_cons
    (workshop : Workshop)
    (graph : Graph)
    (change : Change)
    (rest : List Change) :
    (workshop.process graph (change :: rest)).1.outcomes =
      workshop.outcomesAlone graph change ++
        (workshop.process (workshop.process graph [change]).2 rest).1.outcomes := by
  simp only [process, outcomesAlone, List.flatMap_cons, List.flatMap_nil, List.append_nil,
    outcomes_performAll_append]

theorem process_congr
    (hbuiltin : workshop.registry.IsBuiltin)
    {other : Graph} {changes : List Change}
    (hagree :
      ∀ change ∈ changes, ∀ entry ∈ workshop.entriesOf change,
        graph.held entry = other.held entry) :
    (workshop.process graph changes).1.outcomes = (workshop.process other changes).1.outcomes ∧
      ∀ entry, graph.held entry = other.held entry →
        (workshop.process graph changes).2.held entry =
          (workshop.process other changes).2.held entry := by
  apply performAll_congr hbuiltin
  intro operation hoperation entry hentry
  obtain ⟨change, hchange, hmem⟩ := List.mem_flatMap.mp hoperation
  exact hagree change hchange entry (List.mem_filterMap.mpr ⟨operation, hmem, hentry⟩)

/-- What no change of a batch is about stays as it is. -/
theorem held_process_of_not_concerns
    (hbuiltin : workshop.registry.IsBuiltin)
    (graph : Graph)
    {changes : List Change} {entry : Graph.Entry}
    (hothers : ∀ change ∈ changes, entry ∉ workshop.entriesOf change) :
    (workshop.process graph changes).2.held entry = graph.held entry := by
  apply held_performAll_of_ne hbuiltin
  intro operation hoperation hentry
  obtain ⟨change, hchange, hmem⟩ := List.mem_flatMap.mp hoperation
  exact hothers change hchange (List.mem_filterMap.mpr ⟨operation, hmem, hentry⟩)

/-- A change that is followed alone leaves what an independent one is about. -/
theorem Independent.held_process
    (hbuiltin : workshop.registry.IsBuiltin)
    {change other : Change}
    (hindependent : workshop.Independent change other)
    (graph : Graph)
    {entry : Graph.Entry}
    (hconcerns : entry ∈ workshop.entriesOf other) :
    (workshop.process graph [change]).2.held entry = graph.held entry := by
  apply held_process_of_not_concerns hbuiltin
  intro first hfirst
  rw [List.mem_singleton.mp hfirst]
  exact hindependent.symm entry hconcerns

section Batch

variable (hbuiltin : workshop.registry.IsBuiltin) {changes : List Change}

include hbuiltin

/-- In a batch of independent changes each makes of its entries what it would make of them alone. -/
theorem held_process_of_independent
    (hindependent : changes.Pairwise workshop.Independent)
    (graph : Graph)
    {change : Change} {entry : Graph.Entry}
    (hchange : change ∈ changes)
    (hconcerns : entry ∈ workshop.entriesOf change) :
    (workshop.process graph changes).2.held entry =
      (workshop.process graph [change]).2.held entry := by
  induction changes generalizing graph with
  | nil =>
      cases hchange
  | cons first rest ih =>
      obtain ⟨hfirst, hrest⟩ := List.pairwise_cons.mp hindependent
      have hsplit := workshop.process_append graph [first] rest
      rw [List.singleton_append] at hsplit
      rw [hsplit]
      rcases List.mem_cons.mp hchange with rfl | hlater
      · exact held_process_of_not_concerns hbuiltin _ fun later hlater =>
          hfirst later hlater entry hconcerns
      · rw [ih hrest (workshop.process graph [first]).2 hlater]
        have hleft :
            ∀ own ∈ workshop.entriesOf change,
              (workshop.process graph [first]).2.held own = graph.held own :=
          fun own hown => (hfirst change hlater).held_process hbuiltin graph hown
        refine (process_congr hbuiltin ?_).2 entry (hleft entry hconcerns)
        intro only honly
        rw [List.mem_singleton.mp honly]
        exact hleft

theorem outcomes_process_of_independent
    (hindependent : changes.Pairwise workshop.Independent)
    (graph : Graph) :
    (workshop.process graph changes).1.outcomes =
      changes.flatMap (workshop.outcomesAlone graph) := by
  induction changes with
  | nil =>
      rfl
  | cons first rest ih =>
      obtain ⟨hfirst, hrest⟩ := List.pairwise_cons.mp hindependent
      have hsame :
          (workshop.process (workshop.process graph [first]).2 rest).1.outcomes =
            (workshop.process graph rest).1.outcomes := by
        refine (process_congr hbuiltin ?_).1
        intro later hlater entry hconcerns
        exact (hfirst later hlater).held_process hbuiltin graph hconcerns
      rw [outcomes_process_cons, hsame, ih hrest, List.flatMap_cons]

/-- Two orders of a batch of independent changes lead to graphs that hold the same. -/
theorem held_process_perm
    (hindependent : changes.Pairwise workshop.Independent)
    {changes' : List Change}
    (hperm : changes'.Perm changes)
    (graph : Graph) :
    (workshop.process graph changes').2.held = (workshop.process graph changes).2.held := by
  have hindependent' : changes'.Pairwise workshop.Independent :=
    (hperm.pairwise_iff Independent.symm).mpr hindependent
  funext entry
  by_cases hconcerned : ∃ change ∈ changes, entry ∈ workshop.entriesOf change
  · obtain ⟨change, hchange, hconcerns⟩ := hconcerned
    rw [held_process_of_independent hbuiltin hindependent graph hchange hconcerns,
      held_process_of_independent hbuiltin hindependent' graph (hperm.mem_iff.mpr hchange)
        hconcerns]
  · rw [not_exists] at hconcerned
    rw [held_process_of_not_concerns hbuiltin graph fun change hchange hconcerns =>
        hconcerned change ⟨hchange, hconcerns⟩,
      held_process_of_not_concerns hbuiltin graph fun change hchange hconcerns =>
        hconcerned change ⟨hperm.mem_iff.mp hchange, hconcerns⟩]

end Batch

/-- A batch in which no two changes are about one entry can be followed in any order: the graph is
the same, with its index, and every change has the outcomes that it has alone. -/
theorem process_perm
    {mappings : List (String × String)}
    (hregistry : workshop.registry = .ofMappings mappings)
    (hreach : graph.Reachable)
    {changes changes' : List Change}
    (hindependent : changes.Pairwise workshop.Independent)
    (hperm : changes'.Perm changes) :
    (workshop.process graph changes').2 = (workshop.process graph changes).2 ∧
      (workshop.process graph changes).1.outcomes =
        changes.flatMap (workshop.outcomesAlone graph) ∧
      (workshop.process graph changes').1.outcomes =
        changes'.flatMap (workshop.outcomesAlone graph) := by
  have hbuiltin : workshop.registry.IsBuiltin := by
    rw [hregistry]
    exact Registry.isBuiltin_ofMappings mappings
  have hindependent' : changes'.Pairwise workshop.Independent :=
    (hperm.pairwise_iff Independent.symm).mpr hindependent
  refine ⟨?_, outcomes_process_of_independent hbuiltin hindependent graph,
    outcomes_process_of_independent hbuiltin hindependent' graph⟩
  exact (workshop.reachable_process hreach changes').eq_of_held_eq
    (workshop.reachable_process hreach changes)
    (held_process_perm hbuiltin hindependent hperm graph)

end Changes

section Siding

/-- What the files of two edges hold that leave one node. -/
def sidingFiles (path : Path) : Except PropertyFileError PropertySet :=
  if path = .ofText "git-flowgraph/flowgraph/A/B/e.properties" ∨
      path = .ofText "git-flowgraph/flowgraph/A/C/e.properties" then
    .ok (.ofList
      [(Key.edgeTemplate, "FS:///any.template"),
        ("flow.edge.specExecutors.0.specExecInstance.class", "copy")])
  else .error (.unreadable path .notFound)

/-- A workshop in which two edges can be read. -/
def siding : Workshop :=
  { depot with
    load := sidingFiles
    catalog := fun uri =>
      .ok { uri := uri, description := "", input := .any, output := .any, config := ∅ } }

/-- One edge leaves the node. -/
def sidingGraph : Graph :=
  (siding.process .empty [.added (.ofText "flowgraph/A/B/e.properties")]).2

/-- The edge goes and another one comes, which leaves the same node; and a file of that node gets
another name. -/
def sidingChanges : List Change :=
  [.deleted (.ofText "flowgraph/A/B/e.properties"), .added (.ofText "flowgraph/A/C/e.properties"),
    ⟨.rename, some (.ofText "flowgraph/A/A.properties"), some (.ofText "flowgraph/A/A.props")⟩]

theorem process_perm_siding :
    sidingGraph.Reachable ∧
      sidingChanges.Pairwise siding.Independent ∧
      (siding.process sidingGraph sidingChanges.reverse).2 =
        (siding.process sidingGraph sidingChanges).2 ∧
      (siding.process sidingGraph sidingChanges).1.outcomes.map Prod.snd =
        [.applied, .applied, .rejected, .skipped .loadFailed] ∧
      (siding.process sidingGraph sidingChanges.reverse).1.outcomes =
        sidingChanges.reverse.flatMap (siding.outcomesAlone sidingGraph) := by
  have hempty : Graph.empty.Reachable := ⟨[], rfl⟩
  have hreach : sidingGraph.Reachable := siding.reachable_process hempty _
  have hindependent : sidingChanges.Pairwise siding.Independent := by decide
  obtain ⟨hgraph, -, houtcomes⟩ :=
    process_perm rfl hreach hindependent sidingChanges.reverse_perm
  exact ⟨hreach, hindependent, hgraph, by decide +kernel, houtcomes⟩

end Siding

end Workshop

end HopRouting
