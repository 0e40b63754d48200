import HopRouting.Proofs.Sync.Mirror

/-!
# Accounts of polls

A poll follows changes and reports an outcome for every operation that this takes.  The account of a
poll has each operation with its outcome; a poll that fails has an empty one.

**Results.**  Of a working copy, a poll takes in the files that are new or different and declare an
element (`mem_account_add_iff`), and it forgets those that are gone (`mem_account_remove_iff`).
-/

namespace HopRouting

namespace Workshop

variable {workshop : Workshop}

/-- Whether a file is taken in depends on what it declares, and not on the graph. -/
theorem perform_add_eq_applied_iff
    {graph : Graph} {path : Path} :
    (workshop.perform graph (.add path)).1 = .applied ↔
      ∃ entry element, workshop.Declares path entry element := by
  constructor
  · intro happlied
    rcases workshop.entryOf?_cases path with ⟨entry, hentry⟩ | ⟨reason, hrole⟩ | hrole
    · by_contra hnone
      have hundeclared : ∀ element, ¬ workshop.Declares path entry element :=
        fun element hdeclares => hnone ⟨entry, element, hdeclares⟩
      rw [perform, addPath_of_not_declares hentry hundeclared graph] at happlied
      cases happlied
    · rw [perform_of_skipped hrole graph] at happlied
      cases happlied
    · rw [perform_of_ignored hrole graph] at happlied
      cases happlied
  · rintro ⟨entry, element, hdeclares⟩
    rw [perform, hdeclares.addPath_eq graph]

theorem paths_performAll
    (workshop : Workshop)
    (graph : Graph)
    (operations : List Operation) :
    (workshop.performAll graph operations).1.map Prod.fst = operations.map Operation.path := by
  induction operations generalizing graph with
  | nil => rfl
  | cons operation rest ih => exact congrArg (operation.path :: ·) (ih _)

/-- What is done to a graph, each operation with its outcome. -/
def account (workshop : Workshop) (graph : Graph) (operations : List Operation) :
    List (Operation × Outcome) :=
  operations.zip ((workshop.performAll graph operations).1.map Prod.snd)

variable {graph : Graph} {operations : List Operation}

theorem account_cons
    (workshop : Workshop)
    (graph : Graph)
    (operation : Operation)
    (rest : List Operation) :
    workshop.account graph (operation :: rest) =
      (operation, (workshop.perform graph operation).1) ::
        workshop.account (workshop.perform graph operation).2 rest :=
  rfl

/-- Every operation has an outcome. -/
theorem mem_account_iff
    {operation : Operation} :
    (∃ outcome, (operation, outcome) ∈ workshop.account graph operations) ↔
      operation ∈ operations := by
  induction operations generalizing graph with
  | nil => simp [account]
  | cons first rest ih =>
      simp only [account_cons, List.mem_cons, Prod.mk.injEq, exists_or, exists_and_left,
        exists_eq, and_true, ih]

theorem mem_account_applied_iff
    {path : Path} :
    (.add path, .applied) ∈ workshop.account graph operations ↔
      .add path ∈ operations ∧ ∃ entry element, workshop.Declares path entry element := by
  induction operations generalizing graph with
  | nil => simp [account]
  | cons first rest ih =>
      rw [account_cons, List.mem_cons, List.mem_cons, Prod.mk.injEq, ih, or_and_right]
      apply or_congr_left
      constructor
      · rintro ⟨rfl, happlied⟩
        exact ⟨rfl, perform_add_eq_applied_iff.mp happlied.symm⟩
      · rintro ⟨rfl, hdeclares⟩
        exact ⟨rfl, (perform_add_eq_applied_iff.mpr hdeclares).symm⟩

end Workshop

namespace Monitor

/-- The changes that a poll follows; a poll that fails follows none. -/
def tidings (monitor : Monitor) (tree : FileTree) : List Change :=
  (monitor.source.poll tree).1.toOption.getD []

/-- What a poll does, each operation with the outcome that the report has for it. -/
def account (monitor : Monitor) (tree : FileTree) : List (Operation × Outcome) :=
  ((monitor.tidings tree).flatMap Change.operations).zip
    ((monitor.poll tree).1.outcomes.map Prod.snd)

/-- A monitor with builders of the library that follows a working copy. -/
structure Watches (monitor : Monitor) : Prop where
  builtin : monitor.registry.IsBuiltin
  directory : ∃ source, monitor.source = .directory source

section Polls

variable {monitor : Monitor} {tree : FileTree}

theorem settings_poll
    (monitor : Monitor)
    (tree : FileTree) :
    (monitor.poll tree).2.settings = monitor.settings := by
  unfold poll
  split <;> rfl

theorem settings_pollAll
    (monitor : Monitor)
    (trees : List FileTree) :
    (monitor.pollAll trees).settings = monitor.settings := by
  induction trees generalizing monitor with
  | nil => rfl
  | cons tree rest ih => exact (ih (monitor.poll tree).2).trans (monitor.settings_poll tree)

theorem pollAll_append
    (monitor : Monitor)
    (front back : List FileTree) :
    monitor.pollAll (front ++ back) = (monitor.pollAll front).pollAll back :=
  List.foldl_append

theorem Watches.poll
    (hwatches : monitor.Watches)
    (tree : FileTree) :
    (monitor.poll tree).2.Watches := by
  obtain ⟨source, hsource⟩ := hwatches.directory
  cases hscan : Scan.ofTree tree source.root with
  | error cause =>
      rw [poll_of_error hsource hscan]
      exact hwatches
  | ok scan =>
      rw [poll_of_scan hsource hscan]
      exact ⟨hwatches.builtin, _, rfl⟩

theorem Watches.pollAll
    (hwatches : monitor.Watches)
    (trees : List FileTree) :
    (monitor.pollAll trees).Watches := by
  induction trees generalizing monitor with
  | nil => exact hwatches
  | cons tree rest ih => exact ih (hwatches.poll tree)

theorem report_of_error
    {root : Path} {seen : Scan} {cause : SourceError}
    (hsource : monitor.source = .directory ⟨root, seen⟩)
    (herror : Scan.ofTree tree root = .error cause) :
    (monitor.poll tree).1 = .empty := by
  simp only [poll, hsource, Source.poll, DirectorySource.poll, herror]
  rfl

theorem report_of_scan
    {root : Path} {seen scan : Scan}
    (hsource : monitor.source = .directory ⟨root, seen⟩)
    (hscan : Scan.ofTree tree root = .ok scan) :
    (monitor.poll tree).1 =
      ((monitor.workshop tree).process monitor.graph (seen.changes scan)).1 := by
  simp only [poll, hsource, Source.poll, DirectorySource.poll, hscan]
  rfl

theorem account_of_error
    {root : Path} {seen : Scan} {cause : SourceError}
    (hsource : monitor.source = .directory ⟨root, seen⟩)
    (herror : Scan.ofTree tree root = .error cause) :
    monitor.account tree = [] := by
  simp [account, tidings, hsource, Source.poll, DirectorySource.poll, herror, Except.toOption]

theorem account_of_scan
    {root : Path} {seen scan : Scan}
    (hsource : monitor.source = .directory ⟨root, seen⟩)
    (hscan : Scan.ofTree tree root = .ok scan) :
    monitor.account tree =
      (monitor.workshop tree).account monitor.graph
        ((seen.gone scan).map (fun names => .remove (.ofNames names)) ++
          (seen.touched scan).map (fun names => .add (.ofNames names))) := by
  have htidings : monitor.tidings tree = seen.changes scan := by
    simp [tidings, hsource, Source.poll, DirectorySource.poll, hscan, Except.toOption]
  rw [account, htidings, report_of_scan hsource hscan, Workshop.account,
    ← Scan.operations_changes]
  rfl

/-- The report on a poll has an outcome for every file that is gone, new or different. -/
theorem mem_paths_iff
    {root : Path} {seen scan : Scan}
    (hsource : monitor.source = .directory ⟨root, seen⟩)
    (hscan : Scan.ofTree tree root = .ok scan)
    {path : Path} :
    path ∈ (monitor.poll tree).1.outcomes.map Prod.fst ↔
      ∃ names, (names ∈ seen.gone scan ∨ names ∈ seen.touched scan) ∧ .ofNames names = path := by
  have hpaths :=
    (monitor.workshop tree).paths_performAll monitor.graph
      ((seen.changes scan).flatMap Change.operations)
  have hreport :
      (monitor.poll tree).1.outcomes.map Prod.fst =
        ((seen.changes scan).flatMap Change.operations).map Operation.path := by
    rw [report_of_scan hsource hscan]
    exact hpaths
  rw [hreport, Scan.operations_changes]
  simp [Operation.path, or_and_right, exists_or]

/-- A file is taken in by a poll if it is new or different, and declares an element. -/
theorem mem_account_add_iff
    {root : Path} {seen scan : Scan}
    (hsource : monitor.source = .directory ⟨root, seen⟩)
    (hscan : Scan.ofTree tree root = .ok scan)
    {path : Path} :
    (.add path, .applied) ∈ monitor.account tree ↔
      (∃ names ∈ seen.touched scan, .ofNames names = path) ∧
        ∃ entry element, (monitor.workshop tree).Declares path entry element := by
  rw [account_of_scan hsource hscan, Workshop.mem_account_applied_iff]
  simp

/-- A file is forgotten by a poll if it is gone. -/
theorem mem_account_remove_iff
    {root : Path} {seen scan : Scan}
    (hsource : monitor.source = .directory ⟨root, seen⟩)
    (hscan : Scan.ofTree tree root = .ok scan)
    {path : Path} :
    (∃ outcome, (.remove path, outcome) ∈ monitor.account tree) ↔
      ∃ names ∈ seen.gone scan, .ofNames names = path := by
  rw [account_of_scan hsource hscan, Workshop.mem_account_iff]
  simp

end Polls

end Monitor

end HopRouting
