import HopRouting.Proofs.Sync.Accounts

/-!
# Nodes that several files define

All files in the directory of a node have the role of that node, whatever they are called.  The
graph does not count them: the node is there after one of them was taken in, and it is gone after
one of them was forgotten, even if another is still there.  A file that stays as it is comes up in
no change, so it does not bring the node back.

**Step.**  `isSome_held_poll_iff`: after a poll the graph has the node if the poll takes in a file
of the node, or if it had the node before and the poll forgets no file of it.

**Result.**  `mem_nodes_iff_restores`: once a file of the node was taken in, the graph has the node
exactly if, ever since, polls that forget a file of the node are made up for by one of its files
that is taken in at once or later; that a file of the node is still there is not enough
(`not_kept_by_file`).
-/

namespace HopRouting

namespace Workshop

variable {workshop : Workshop} {entry : Graph.Entry}

section Held

variable (hbuiltin : workshop.registry.IsBuiltin) (graph : Graph)

include hbuiltin

theorem isSome_held_add_iff
    (path : Path) :
    ((workshop.perform graph (.add path)).2.held entry).isSome ↔
      (∃ element, workshop.Declares path entry element) ∨ (graph.held entry).isSome := by
  by_cases hdeclared : ∃ element, workshop.Declares path entry element
  · obtain ⟨element, hdeclares⟩ := hdeclared
    rw [perform, hdeclares.addPath_eq graph, graph.held_put, hdeclares.entry_eq hbuiltin,
      Function.update_self]
    exact iff_of_true rfl (Or.inl ⟨element, hdeclares⟩)
  · have heffect := perform_effect hbuiltin graph (.add path)
    generalize (workshop.perform graph (.add path)).1 = outcome at heffect
    generalize (workshop.perform graph (.add path)).2 = next at heffect ⊢
    rw [or_iff_right hdeclared]
    cases heffect with
    | skipped _ => rfl
    | ignored _ => rfl
    | failed _ _ => rfl
    | @added _ named element _ hdeclares hwritten =>
        have hother : entry ≠ named := by
          rintro rfl
          exact hdeclared ⟨element, hdeclares⟩
        rw [hwritten, Function.update_of_ne hother]

theorem isSome_held_addAll_iff
    (files : List Location) :
    ((workshop.performAll graph (files.map fun names => .add (.ofNames names))).2.held
        entry).isSome ↔
      (∃ names ∈ files, ∃ element, workshop.Declares (.ofNames names) entry element) ∨
        (graph.held entry).isSome := by
  induction files generalizing graph with
  | nil => simp [performAll]
  | cons names rest ih =>
      have hrest := ih (workshop.perform graph (.add (.ofNames names))).2
      simp only [List.mem_cons, exists_eq_or_imp]
      refine hrest.trans ?_
      rw [isSome_held_add_iff hbuiltin graph (.ofNames names), or_left_comm, or_assoc]

/-- Between two scans an entry is filled by what is taken in, or stays filled unless it is named by
what is gone. -/
theorem isSome_held_process_changes_iff
    (before after : Scan) :
    ((workshop.process graph (before.changes after)).2.held entry).isSome ↔
      (∃ names ∈ before.touched after, ∃ element,
        workshop.Declares (.ofNames names) entry element) ∨
      (graph.held entry).isSome ∧
        ∀ names ∈ before.gone after, workshop.entryOf? (.ofNames names) ≠ some entry := by
  simp only [process, before.operations_changes after, performAll_append]
  rw [isSome_held_addAll_iff hbuiltin, Option.isSome_iff_exists, Option.isSome_iff_exists]
  apply or_congr_right
  simp only [held_removeAll_iff hbuiltin, exists_and_right]

end Held

end Workshop

namespace Monitor

/-- The poll takes in a file of the node. -/
def TakesIn (monitor : Monitor) (id : String) (tree : FileTree) : Prop :=
  ∃ path, monitor.settings.roleOf path = .node id ∧ (.add path, .applied) ∈ monitor.account tree

/-- The poll forgets a file of the node. -/
def Forgets (monitor : Monitor) (id : String) (tree : FileTree) : Prop :=
  ∃ path, monitor.settings.roleOf path = .node id ∧
    ∃ outcome, (.remove path, outcome) ∈ monitor.account tree

/-- One of the polls takes in a file of the node. -/
def TakesInSome (monitor : Monitor) (id : String) : List FileTree → Prop
  | [] => False
  | tree :: rest => monitor.TakesIn id tree ∨ (monitor.poll tree).2.TakesInSome id rest

/-- Whenever one of the polls forgets a file of the node, it or a later one takes in a file of the
node. -/
def Restores (monitor : Monitor) (id : String) : List FileTree → Prop
  | [] => True
  | tree :: rest =>
    (monitor.Forgets id tree → monitor.TakesInSome id (tree :: rest)) ∧
      (monitor.poll tree).2.Restores id rest

section Polls

variable {monitor : Monitor} {id : String}

theorem entryOf?_eq_node_iff
    {workshop : Workshop} {path : Path} :
    workshop.entryOf? path = some (.node id) ↔ workshop.settings.roleOf path = .node id := by
  unfold Workshop.entryOf?
  cases workshop.settings.roleOf path with
  | node own => simp [PathRole.entry?]
  | edge source destination name => simp [PathRole.entry?]
  | skipped reason => simp [PathRole.entry?]
  | ignored => simp [PathRole.entry?]

/-- What a poll does to a node. -/
theorem isSome_held_poll_iff
    (hwatches : monitor.Watches)
    (tree : FileTree) :
    ((monitor.poll tree).2.graph.held (.node id)).isSome ↔
      monitor.TakesIn id tree ∨
        (monitor.graph.held (.node id)).isSome ∧ ¬ monitor.Forgets id tree := by
  obtain ⟨⟨root, seen⟩, hsource⟩ := hwatches.directory
  cases hscan : Scan.ofTree tree root with
  | error cause =>
      have haccount := account_of_error hsource hscan
      rw [poll_of_error hsource hscan]
      simp [TakesIn, Forgets, haccount]
  | ok scan =>
      have hgraph :
          (monitor.poll tree).2.graph =
            ((monitor.workshop tree).process monitor.graph (seen.changes scan)).2 := by
        rw [poll_of_scan hsource hscan]
      have htaken :
          monitor.TakesIn id tree ↔
            ∃ names ∈ seen.touched scan, ∃ element,
              (monitor.workshop tree).Declares (.ofNames names) (.node id) element := by
        simp only [TakesIn, mem_account_add_iff hsource hscan]
        constructor
        · rintro ⟨_, hrole, ⟨names, hnames, rfl⟩, entry, element, hdeclares⟩
          have hentry : (monitor.workshop tree).entryOf? (.ofNames names) = some (.node id) :=
            entryOf?_eq_node_iff.mpr hrole
          cases hentry.symm.trans hdeclares.entryOf?_eq
          exact ⟨names, hnames, element, hdeclares⟩
        · rintro ⟨names, hnames, element, hdeclares⟩
          exact ⟨_, entryOf?_eq_node_iff.mp hdeclares.entryOf?_eq, ⟨names, hnames, rfl⟩, _, element,
            hdeclares⟩
      have hforgotten :
          ¬ monitor.Forgets id tree ↔
            ∀ names ∈ seen.gone scan,
              (monitor.workshop tree).entryOf? (.ofNames names) ≠ some (.node id) := by
        simp only [Forgets, mem_account_remove_iff hsource hscan]
        constructor
        · intro hnone names hnames hentry
          exact hnone ⟨_, entryOf?_eq_node_iff.mp hentry, names, hnames, rfl⟩
        · rintro hnone ⟨_, hrole, names, hnames, rfl⟩
          exact hnone names hnames (entryOf?_eq_node_iff.mpr hrole)
      have hbuiltin : (monitor.workshop tree).registry.IsBuiltin := hwatches.builtin
      rw [hgraph, htaken, hforgotten, Workshop.isSome_held_process_changes_iff hbuiltin]

/-- What a run of polls does to a node. -/
theorem isSome_held_pollAll_iff
    (hwatches : monitor.Watches)
    (trees : List FileTree) :
    ((monitor.pollAll trees).graph.held (.node id)).isSome ↔
      monitor.Restores id trees ∧
        ((monitor.graph.held (.node id)).isSome ∨ monitor.TakesInSome id trees) := by
  induction trees generalizing monitor with
  | nil => simp [pollAll, Restores, TakesInSome]
  | cons tree rest ih =>
      have hrun := ih (hwatches.poll tree)
      rw [isSome_held_poll_iff hwatches tree] at hrun
      refine hrun.trans ?_
      rw [Restores, TakesInSome]
      tauto

end Polls

end Monitor

theorem Graph.mem_nodes_iff
    {graph : Graph} {id : String} :
    id ∈ graph.nodes ↔ (graph.held (.node id)).isSome := by
  rw [Graph.held, Option.isSome_map, Std.ExtTreeMap.mem_iff_isSome_getElem?]

namespace CompilerParts

variable {parts : CompilerParts} {compiler : Compiler} {exports : Option MetricRegistry}

theorem watches_of_build
    (hbuild : parts.build = .ok (compiler, exports))
    (hsource : parts.source = none)
    {catalog : FileTree → Catalog}
    (hcatalog : parts.catalog = some catalog)
    {mappings : List (String × String)}
    (hregistry : parts.registry = .ofMappings mappings) :
    compiler.monitor.Watches := by
  rw [monitor_of_build hbuild hcatalog, hsource, hregistry]
  exact ⟨Registry.isBuiltin_ofMappings mappings, _, rfl⟩

/-- Once a file of a node was taken in, the graph has the node exactly if every poll since that
forgets a file of the node is made up for. -/
theorem mem_nodes_iff_restores
    (hbuild : parts.build = .ok (compiler, exports))
    (hsource : parts.source = none)
    {catalog : FileTree → Catalog}
    (hcatalog : parts.catalog = some catalog)
    {mappings : List (String × String)}
    (hregistry : parts.registry = .ofMappings mappings)
    {before : List FileTree} {tree : FileTree} {path : Path} {id : String}
    (hrole : parts.settings.roleOf path = .node id)
    (htaken : (.add path, .applied) ∈ (compiler.monitor.pollAll before).account tree)
    (later : List FileTree) :
    id ∈ (compiler.monitor.pollAll (before ++ tree :: later)).graph.nodes ↔
      (compiler.monitor.pollAll (before ++ [tree])).Restores id later := by
  have hwatches := watches_of_build hbuild hsource hcatalog hregistry
  have hpast := hwatches.pollAll before
  have hsettings : (compiler.monitor.pollAll before).settings = parts.settings := by
    rw [Monitor.settings_pollAll, monitor_of_build hbuild hcatalog]
  have hthere :
      ((compiler.monitor.pollAll (before ++ [tree])).graph.held (.node id)).isSome := by
    rw [Monitor.pollAll_append]
    refine (Monitor.isSome_held_poll_iff hpast tree).mpr (Or.inl ⟨path, ?_, htaken⟩)
    rw [hsettings, hrole]
  have hsplit : before ++ tree :: later = before ++ [tree] ++ later := by simp
  rw [Graph.mem_nodes_iff, hsplit, Monitor.pollAll_append,
    Monitor.isSome_held_pollAll_iff (hwatches.pollAll _) later]
  exact and_iff_left (Or.inl hthere)

section TwoFiles

/-- A working copy with files that define the same node. -/
def siteWith (files : List String) : FileTree :=
  site ([([], none), ([.ofText "flowgraph"], none),
      ([.ofText "flowgraph", .ofText "A"], none)] ++
    files.map fun file =>
      ([.ofText "flowgraph", .ofText "A", .ofText file],
        some (Text.bytes "data.node.platform=hdfs")))

/-- The names that lead to the second file. -/
def secondFile : Location := [.ofText "flowgraph", .ofText "A", .ofText "two.properties"]

/-- Both files are there. -/
def bothFiles : FileTree := siteWith ["one.properties", "two.properties"]

/-- The first file is gone. -/
def oneFile : FileTree := siteWith ["two.properties"]

/-- The second file has another name. -/
def movedFile : FileTree := siteWith ["three.properties"]

theorem mem_nodes_iff_restores_station :
    station.build = .ok (⟨stationMonitor, {}⟩, none) ∧
      station.settings.roleOf (.ofNames secondFile) = .node "A" ∧
      (.add (.ofNames secondFile), .applied) ∈ (stationMonitor.pollAll []).account bothFiles ∧
      "A" ∈ (stationMonitor.pollAll ([] ++ bothFiles :: [oneFile, movedFile])).graph.nodes ∧
      (stationMonitor.pollAll ([] ++ [bothFiles])).Restores "A" [oneFile, movedFile] := by
  have hbuild : station.build = .ok (⟨stationMonitor, {}⟩, none) := rfl
  have hrole : station.settings.roleOf (.ofNames secondFile) = .node "A" := by decide
  have htaken :
      (.add (.ofNames secondFile), .applied) ∈
        (stationMonitor.pollAll []).account bothFiles := by
    decide +kernel
  have hback :
      "A" ∈ (stationMonitor.pollAll ([] ++ bothFiles :: [oneFile, movedFile])).graph.nodes := by
    decide +kernel
  have hiff := mem_nodes_iff_restores hbuild rfl rfl rfl hrole htaken [oneFile, movedFile]
  exact ⟨hbuild, hrole, htaken, hback, hiff.mp hback⟩

/-- The second file stays as it is when the first one goes. -/
theorem getElem?_secondFile
    {tree : FileTree}
    (htree : tree ∈ bothFiles :: [] ++ [oneFile]) :
    ∃ scan, Scan.ofTree tree station.settings.repositoryDir = .ok scan ∧
      scan[secondFile]? = some (Text.bytes "data.node.platform=hdfs") := by
  have hscanned :
      ∀ tree ∈ bothFiles :: [] ++ [oneFile],
        ((Scan.ofTree tree station.settings.repositoryDir).toOption.bind fun scan =>
          scan[secondFile]?) = some (Text.bytes "data.node.platform=hdfs") := by
    decide +kernel
  obtain ⟨scan, hscan, hcontent⟩ := Option.bind_eq_some_iff.mp (hscanned tree htree)
  exact ⟨scan, toOption_eq_some_iff.mp hscan, hcontent⟩

/-- If another file of the node is deleted, or is moved over a file with the same content, the node
goes, although a file that was taken in is still there as it was. -/
theorem not_kept_by_file :
    ¬ ∀ (parts : CompilerParts) (compiler : Compiler) (exports : Option MetricRegistry)
        (catalog : Catalog) (mappings : List (String × String)) (before later : List FileTree)
        (tree last : FileTree) (names : Location) (content : List UInt8) (id : String),
        parts.build = .ok (compiler, exports) →
        parts.source = none →
        parts.loader = none →
        (parts.catalog = some fun _ => catalog) →
        parts.registry = .ofMappings mappings →
        parts.settings.roleOf (.ofNames names) = .node id →
        (.add (.ofNames names), .applied) ∈ (compiler.monitor.pollAll before).account tree →
        (∀ seen ∈ tree :: later ++ [last], ∀ scan,
          Scan.ofTree seen parts.settings.repositoryDir = .ok scan →
            scan[names]? = some content) →
        compiler.monitor.Answered last →
        id ∈ (compiler.monitor.pollAll (before ++ tree :: later ++ [last])).graph.nodes := by
  intro hkept
  have htaken :
      (.add (.ofNames secondFile), .applied) ∈
        (stationMonitor.pollAll []).account bothFiles := by
    decide +kernel
  have hunchanged :
      ∀ tree ∈ bothFiles :: [] ++ [oneFile], ∀ scan,
        Scan.ofTree tree station.settings.repositoryDir = .ok scan →
          scan[secondFile]? = some (Text.bytes "data.node.platform=hdfs") := by
    intro tree htree scan hscan
    obtain ⟨found, hfound, hcontent⟩ := getElem?_secondFile htree
    cases hscan.symm.trans hfound
    exact hcontent
  have hanswered : stationMonitor.Answered oneFile := by
    obtain ⟨scan, hscan, -⟩ := getElem?_secondFile (List.mem_cons_of_mem _ List.mem_cons_self)
    exact ⟨scan, hscan⟩
  have hthere :=
    hkept station ⟨stationMonitor, {}⟩ none stationCatalog [("lake", "fs")] [] [] bothFiles oneFile
      secondFile (Text.bytes "data.node.platform=hdfs") "A" rfl rfl rfl rfl rfl (by decide) htaken
      hunchanged hanswered
  have hgone :
      "A" ∉ (stationMonitor.pollAll ([] ++ bothFiles :: [] ++ [oneFile])).graph.nodes := by
    decide +kernel
  exact hgone hthere

end TwoFiles

end CompilerParts

end HopRouting
