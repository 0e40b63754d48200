import HopRouting.Compiler.Basic
import HopRouting.Proofs.Sync.Batches
import HopRouting.Proofs.Sync.Overlays

/-!
# The graph mirrors the working copy

A compiler without a source and a loader of its own follows the working copy with its overlays.
Between two polls anything may be done to the files, and a poll that fails changes nothing.

**Layout.**  `Documented` is what the layout of a repository promises: every file that names an
entry of the graph declares an element, and no two name the same entry.  `Layout` promises it, at
every poll that is answered, of a working copy of regular files and directories whose overlay files
stay as they are.

**Result.**  `pollAll_mirrors`: after a poll that is answered, the graph holds exactly what the
files of the working copy declare, under the ids that their paths tell, whatever the working copy
was like before.
-/

namespace HopRouting

namespace Workshop

/-- Some file of the working copy declares the element for the entry. -/
def DeclaredIn (workshop : Workshop) (tree : FileTree) (entry : Graph.Entry) (element : Element) :
    Prop :=
  ∃ names content, tree.HasFile workshop.settings.repositoryDir names content ∧
    workshop.Declares (.ofNames names) entry element

/-- The graph holds exactly what the files of the working copy declare, under the ids that their
paths tell. -/
structure Mirrors (workshop : Workshop) (tree : FileTree) (graph : Graph) : Prop where
  nodes :
    ∀ id node, graph.nodes[id]? = some node ↔ workshop.DeclaredIn tree (.node id) (.node node)
  edges :
    ∀ id edge, graph.edges[id]? = some edge ↔ workshop.DeclaredIn tree (.edge id) (.edge edge)

/-- A file declares nodes for the entries of nodes, and edges for those of edges. -/
theorem mirrors_iff
    {workshop : Workshop} {tree : FileTree} {graph : Graph} :
    workshop.Mirrors tree graph ↔
      ∀ entry element, graph.held entry = some element ↔
        workshop.DeclaredIn tree entry element := by
  constructor
  · intro hmirrors entry element
    cases entry with
    | node id =>
        cases element with
        | node own =>
            rw [← hmirrors.nodes id own, Graph.held, Option.map_eq_some_iff]
            simp
        | edge own =>
            rw [Graph.held, Option.map_eq_some_iff]
            constructor
            · rintro ⟨-, -, ⟨⟩⟩
            · rintro ⟨-, -, -, ⟨⟩⟩
    | edge id =>
        cases element with
        | node own =>
            rw [Graph.held, Option.map_eq_some_iff]
            constructor
            · rintro ⟨-, -, ⟨⟩⟩
            · rintro ⟨-, -, -, ⟨⟩⟩
        | edge own =>
            rw [← hmirrors.edges id own, Graph.held, Option.map_eq_some_iff]
            simp
  · intro hheld
    constructor
    · intro id node
      rw [← hheld (.node id) (.node node), Graph.held, Option.map_eq_some_iff]
      simp
    · intro id edge
      rw [← hheld (.edge id) (.edge edge), Graph.held, Option.map_eq_some_iff]
      simp

/-- Every file that names an entry declares an element for it, and no two files name the same
entry. -/
structure Documented (workshop : Workshop) (tree : FileTree) : Prop where
  declares :
    ∀ names content entry, tree.HasFile workshop.settings.repositoryDir names content →
      workshop.entryOf? (.ofNames names) = some entry →
        ∃ element, workshop.Declares (.ofNames names) entry element
  distinct :
    ∀ names content other content' entry,
      tree.HasFile workshop.settings.repositoryDir names content →
      tree.HasFile workshop.settings.repositoryDir other content' →
      workshop.entryOf? (.ofNames names) = some entry →
      workshop.entryOf? (.ofNames other) = some entry →
        names = other

/-- What is promised of the files is promised of a scan of them. -/
theorem Documented.documentedIn
    {workshop : Workshop} {tree : FileTree}
    (hdocumented : workshop.Documented tree)
    (hroot : workshop.settings.repositoryDir.fileName? ≠ some Scan.hiddenName)
    (hcopy : tree.WorkingCopy workshop.settings.repositoryDir)
    {scan : Scan}
    (hscan : Scan.ofTree tree workshop.settings.repositoryDir = .ok scan) :
    workshop.DocumentedIn scan := by
  constructor
  · intro names hnames entry hentry
    obtain ⟨content, hfile⟩ := (Scan.mem_ofTree_iff hroot hcopy hscan).mp hnames
    exact hdocumented.declares names content entry hfile hentry
  · intro names hnames other hother entry hentry hentry'
    obtain ⟨content, hfile⟩ := (Scan.mem_ofTree_iff hroot hcopy hscan).mp hnames
    obtain ⟨content', hfile'⟩ := (Scan.mem_ofTree_iff hroot hcopy hscan).mp hother
    exact hdocumented.distinct names content other content' entry hfile hfile' hentry hentry'

/-- A declaration depends on no more of the files than what its file is read with. -/
theorem Declares.of_load_eq
    {workshop : Workshop} {path : Path} {entry : Graph.Entry} {element : Element}
    {load : Path → Except PropertyFileError PropertySet}
    (hload :
      workshop.load (workshop.settings.repositoryDir.join path) =
        load (workshop.settings.repositoryDir.join path))
    (hdeclares : workshop.Declares path entry element) :
    Declares { workshop with load } path entry element := by
  cases hdeclares with
  | node hrole hloaded hbuild => exact .node hrole (hload.symm.trans hloaded) hbuild
  | edge hrole hloaded hbuild => exact .edge hrole (hload.symm.trans hloaded) hbuild

/-- What a file declares was read. -/
theorem Declares.exists_loaded
    {workshop : Workshop} {path : Path} {entry : Graph.Entry} {element : Element}
    (hdeclares : workshop.Declares path entry element) :
    ∃ properties,
      workshop.load (workshop.settings.repositoryDir.join path) = .ok properties := by
  cases hdeclares with
  | node _ hloaded _ => exact ⟨_, hloaded⟩
  | edge _ hloaded _ => exact ⟨_, hloaded⟩

end Workshop

theorem OverlayLoader.exists_read_of_load
    {loader : OverlayLoader} {tree : FileTree} {path : Path} {properties : PropertySet}
    (hload : loader.load tree path = .ok properties) :
    ∃ content, tree.read path = .ok content := by
  obtain ⟨own, hown, -⟩ := bind_eq_ok_iff.mp hload
  obtain ⟨text, htext, -⟩ := bind_eq_ok_iff.mp hown
  cases hread : tree.read path with
  | ok content => exact ⟨content, rfl⟩
  | error cause => simp [FileTree.readText, hread, bind, Except.bind, Except.mapError] at htext

namespace Monitor

/-- A monitor as a compiler has it that was given no source and no loader: with builders of the
library under whatever classes, a fixed catalog, and a working copy that is not hidden. -/
structure Standard (monitor : Monitor) : Prop where
  catalog : ∃ catalog : Catalog, monitor.catalog = fun _ => catalog
  loader : monitor.loader = CompilerParts.defaultLoader monitor.settings
  builtin : monitor.registry.IsBuiltin
  root : monitor.settings.repositoryDir.fileName? ≠ some Scan.hiddenName

section Files

variable {monitor : Monitor} {tree : FileTree}
variable (hregular : tree.Regular monitor.settings.repositoryDir)
variable {names : Location} {content : List UInt8}
variable (hfile : tree.HasFile monitor.settings.repositoryDir names content)
variable {entry : Graph.Entry} {element : Element}
variable (hdeclares : (monitor.workshop tree).Declares (.ofNames names) entry element)

include hregular hfile hdeclares

/-- A file that declares something lies below the directory of the flow graph. -/
theorem exists_names_of_declares :
    OrdinaryNames names ∧
      ∃ back last, names = [Text.bytes monitor.settings.graphDir] ++ back ++ [last] := by
  obtain ⟨location, hlocate, hentry⟩ := hfile
  obtain ⟨back, last, hsplit⟩ := Settings.exists_names_of_entry? hdeclares.entryOf?_eq
  have hnames : OrdinaryNames names := by
    refine ⟨?_, hregular.ordinary location names _ hlocate hentry⟩
    rintro rfl
    simp [Settings.namesOf, Path.ofNames, Path.components, Path.segments,
      Path.firstComponent?] at hsplit
  rw [Settings.namesOf_ofNames hnames] at hsplit
  exact ⟨hnames, back, last, hsplit⟩

/-- A file that declares something was read. -/
theorem read_of_declares :
    tree.read (monitor.settings.repositoryDir.join (.ofNames names)) = .ok content := by
  obtain ⟨hnames, -⟩ := exists_names_of_declares hregular hfile hdeclares
  obtain ⟨location, hlocate, hentry⟩ := hfile
  obtain ⟨properties, hloaded⟩ := hdeclares.exists_loaded
  obtain ⟨found, hread⟩ := OverlayLoader.exists_read_of_load hloaded
  have hheld :=
    ((FileTree.read_join_iff hlocate (hregular.plain location hlocate) hnames).mp hread).2.2
  rw [hentry] at hheld
  cases hheld
  exact hread

end Files

/-- A file that is the same in two trees of regular files, and that declares something in both, is
read with the same properties from them, if they agree on the overlays on the way to it. -/
theorem load_eq_of_declares
    {monitor : Monitor}
    (hloader : monitor.loader = CompilerParts.defaultLoader monitor.settings)
    {tree tree' : FileTree}
    (hregular : tree.Regular monitor.settings.repositoryDir)
    (hregular' : tree'.Regular monitor.settings.repositoryDir)
    {names : Location} {content : List UInt8}
    (hagree :
      tree.AgreeAbove tree' monitor.settings.repositoryDir names
        monitor.settings.overlayExtensions)
    (hfile : tree.HasFile monitor.settings.repositoryDir names content)
    (hfile' : tree'.HasFile monitor.settings.repositoryDir names content)
    {entry entry' : Graph.Entry} {element element' : Element}
    (hdeclares : (monitor.workshop tree).Declares (.ofNames names) entry element)
    (hdeclares' : (monitor.workshop tree').Declares (.ofNames names) entry' element') :
    monitor.loader.load tree (monitor.settings.repositoryDir.join (.ofNames names)) =
      monitor.loader.load tree' (monitor.settings.repositoryDir.join (.ofNames names)) := by
  have hread := read_of_declares hregular hfile hdeclares
  have hread' := read_of_declares hregular' hfile' hdeclares'
  obtain ⟨hnames, back, last, rfl⟩ := exists_names_of_declares hregular hfile hdeclares
  obtain ⟨location, hlocate, -⟩ := hfile
  obtain ⟨location', hlocate', -⟩ := hfile'
  have hfront : OrdinaryNames [Text.bytes monitor.settings.graphDir] := by
    rw [List.append_assoc] at hnames
    exact hnames.of_append_left (List.cons_ne_nil _ _)
  have hroot :
      monitor.loader.root =
        monitor.settings.repositoryDir.join
          (.ofNames [Text.bytes monitor.settings.graphDir]) := by
    rw [hloader, Path.ofNames_singleton]
    rfl
  have hextensions : monitor.loader.overlayExtensions = monitor.settings.overlayExtensions := by
    rw [hloader]
    rfl
  rw [← hextensions] at hagree
  exact OverlayLoader.load_congr hregular hregular' hagree hroot hfront hnames hlocate hlocate'
    hread hread'

section Declarations

variable {monitor : Monitor} (hstandard : monitor.Standard)
variable {tree tree' : FileTree}
variable (hcopy : tree.WorkingCopy monitor.settings.repositoryDir)
variable (hcopy' : tree'.WorkingCopy monitor.settings.repositoryDir)
variable
  (hagree : tree.AgreeOn tree' monitor.settings.repositoryDir monitor.settings.overlayExtensions)

include hstandard hcopy hcopy' hagree

/-- A file that is the same in two working copies, and that declares something in both, declares the
same. -/
theorem declares_of_declares
    {names : Location} {content : List UInt8}
    (hfile : tree.HasFile monitor.settings.repositoryDir names content)
    (hfile' : tree'.HasFile monitor.settings.repositoryDir names content)
    {entry entry' : Graph.Entry} {element element' : Element}
    (hdeclares : (monitor.workshop tree).Declares (.ofNames names) entry element)
    (hdeclares' : (monitor.workshop tree').Declares (.ofNames names) entry' element') :
    (monitor.workshop tree').Declares (.ofNames names) entry element := by
  have hload :=
    load_eq_of_declares hstandard.loader hcopy.regular hcopy'.regular (hagree.agreeAbove names)
      hfile hfile' hdeclares hdeclares'
  have hworkshop :
      monitor.workshop tree' =
        { monitor.workshop tree with load := monitor.loader.load tree' } := by
    obtain ⟨catalog, hcatalog⟩ := hstandard.catalog
    simp only [workshop, hcatalog]
  rw [hworkshop]
  exact hdeclares.of_load_eq hload

/-- A file that is the same in two documented working copies declares the same in both. -/
theorem declares_iff_of_same
    (hdocumented : (monitor.workshop tree).Documented tree)
    (hdocumented' : (monitor.workshop tree').Documented tree')
    {names : Location} {content : List UInt8}
    (hfile : tree.HasFile monitor.settings.repositoryDir names content)
    (hfile' : tree'.HasFile monitor.settings.repositoryDir names content)
    (entry : Graph.Entry)
    (element : Element) :
    (monitor.workshop tree).Declares (.ofNames names) entry element ↔
      (monitor.workshop tree').Declares (.ofNames names) entry element := by
  constructor
  · intro hdeclares
    obtain ⟨_, hdeclares'⟩ :=
      hdocumented'.declares names content entry hfile' hdeclares.entryOf?_eq
    exact declares_of_declares hstandard hcopy hcopy' hagree hfile hfile' hdeclares hdeclares'
  · intro hdeclares'
    obtain ⟨_, hdeclares⟩ :=
      hdocumented.declares names content entry hfile hdeclares'.entryOf?_eq
    exact declares_of_declares hstandard hcopy' hcopy hagree.symm hfile' hfile hdeclares' hdeclares

end Declarations

/-- Polls once with each of the trees, which are what the files are like at that moment. -/
def pollAll (monitor : Monitor) (trees : List FileTree) : Monitor :=
  trees.foldl (fun monitor tree => (monitor.poll tree).2) monitor

/-- The working copy can be scanned, so that a poll of it is answered. -/
def Answered (monitor : Monitor) (tree : FileTree) : Prop :=
  ∃ scan, Scan.ofTree tree monitor.settings.repositoryDir = .ok scan

/-- What is promised of the working copy at the polls that are answered. -/
structure Layout (monitor : Monitor) (trees : List FileTree) : Prop where
  copy :
    ∀ tree ∈ trees, monitor.Answered tree → tree.WorkingCopy monitor.settings.repositoryDir
  documented :
    ∀ tree ∈ trees, monitor.Answered tree → (monitor.workshop tree).Documented tree
  overlays :
    ∀ tree ∈ trees, ∀ tree' ∈ trees, monitor.Answered tree → monitor.Answered tree' →
      tree.AgreeOn tree' monitor.settings.repositoryDir monitor.settings.overlayExtensions

theorem poll_of_scan
    {monitor : Monitor} {root : Path} {seen scan : Scan} {tree : FileTree}
    (hsource : monitor.source = .directory ⟨root, seen⟩)
    (hscan : Scan.ofTree tree root = .ok scan) :
    (monitor.poll tree).2 =
      { monitor with
        source := .directory ⟨root, scan⟩
        graph := ((monitor.workshop tree).process monitor.graph (seen.changes scan)).2 } := by
  simp only [poll, hsource, Source.poll, DirectorySource.poll, hscan]
  rfl

theorem poll_of_error
    {monitor : Monitor} {root : Path} {seen : Scan} {tree : FileTree} {cause : SourceError}
    (hsource : monitor.source = .directory ⟨root, seen⟩)
    (herror : Scan.ofTree tree root = .error cause) :
    (monitor.poll tree).2 = monitor := by
  obtain ⟨settings, registry, loader, catalog, source, graph, active, pollLoop⟩ := monitor
  subst hsource
  simp only [poll, Source.poll, DirectorySource.poll, herror, Prod.map]
  rfl

/-- Where a monitor stands after it has polled: it builds elements as before, remembers the last
scan, and its graph mirrors the tree that was scanned, if there was one. -/
structure Stands (initial : Monitor) (trees : List FileTree) (monitor : Monitor) (seen : Scan) :
    Prop where
  source : monitor.source = .directory ⟨initial.settings.repositoryDir, seen⟩
  workshop : monitor.workshop = initial.workshop
  mirrors :
    (seen = ∅ ∧ ∀ entry, monitor.graph.held entry = none) ∨
      ∃ tree ∈ trees, Scan.ofTree tree initial.settings.repositoryDir = .ok seen ∧
        (initial.workshop tree).Mirrors tree monitor.graph

section Run

variable {initial : Monitor} (hstandard : initial.Standard)
variable {trees : List FileTree} (hlayout : initial.Layout trees)

include hstandard hlayout

theorem documentedIn_of_scan
    {tree : FileTree} {scan : Scan}
    (htree : tree ∈ trees)
    (hscan : Scan.ofTree tree initial.settings.repositoryDir = .ok scan) :
    (initial.workshop tree).DocumentedIn scan := by
  have hcopy := hlayout.copy tree htree ⟨scan, hscan⟩
  have hdocumented := hlayout.documented tree htree ⟨scan, hscan⟩
  exact hdocumented.documentedIn hstandard.root hcopy hscan

/-- An answered poll makes the graph mirror the tree. -/
theorem Stands.mirrors_poll
    {past : List FileTree} {monitor : Monitor} {seen : Scan}
    (hstands : Stands initial past monitor seen)
    (hpast : past ⊆ trees)
    {tree : FileTree} {scan : Scan}
    (htree : tree ∈ trees)
    (hscan : Scan.ofTree tree initial.settings.repositoryDir = .ok scan) :
    (initial.workshop tree).Mirrors tree (monitor.poll tree).2.graph := by
  have hcopy := hlayout.copy tree htree ⟨scan, hscan⟩
  have hdocumented := hlayout.documented tree htree ⟨scan, hscan⟩
  have hafter := documentedIn_of_scan hstandard hlayout htree hscan
  have hfiles :
      ∀ entry element,
        (∃ names ∈ scan, (initial.workshop tree).Declares (.ofNames names) entry element) ↔
          (initial.workshop tree).DeclaredIn tree entry element := by
    intro entry element
    simp only [Scan.mem_ofTree_iff hstandard.root hcopy hscan, ← exists_and_right]
    rfl
  rw [poll_of_scan hstands.source hscan, hstands.workshop, Workshop.mirrors_iff]
  intro entry element
  refine Iff.trans ?_ (hfiles entry element)
  rcases hstands.mirrors with ⟨rfl, hnothing⟩ | ⟨old, hold, hseen, hmirrors⟩
  · refine Workshop.held_process_changes_iff hstandard.builtin (fun _ _ _ => False) ?_ ?_ ?_
      ?_ hafter
    · intro entry element
      simp [hnothing entry]
    · intro names _ entry element
      exact False.elim
    · intro names content hpast
      simp at hpast
    · intro names hnames
      simp at hnames
  · have hbefore := documentedIn_of_scan hstandard hlayout (hpast hold) hseen
    have holdcopy := hlayout.copy old (hpast hold) ⟨seen, hseen⟩
    have holddocumented := hlayout.documented old (hpast hold) ⟨seen, hseen⟩
    have hagree := hlayout.overlays old (hpast hold) tree htree ⟨seen, hseen⟩ ⟨scan, hscan⟩
    refine Workshop.held_process_changes_iff hstandard.builtin
      (fun names => (initial.workshop old).Declares (.ofNames names)) ?_ ?_ ?_ hbefore.distinct
      hafter
    · intro entry element
      rw [Workshop.mirrors_iff.mp hmirrors entry element]
      simp only [Scan.mem_ofTree_iff hstandard.root holdcopy hseen, ← exists_and_right]
      rfl
    · intro names _ entry element hdeclared
      exact hdeclared.entryOf?_eq
    · intro names content hold hnow entry element
      exact declares_iff_of_same hstandard holdcopy hcopy hagree holddocumented hdocumented
        ((Scan.getElem?_ofTree hstandard.root holdcopy hseen).mp hold)
        ((Scan.getElem?_ofTree hstandard.root hcopy hscan).mp hnow) entry element

/-- What a poll keeps. -/
theorem Stands.poll
    {past : List FileTree} {monitor : Monitor} {seen : Scan}
    (hstands : Stands initial past monitor seen)
    (hpast : past ⊆ trees)
    {tree : FileTree}
    (htree : tree ∈ trees) :
    ∃ scan, Stands initial (past ++ [tree]) (monitor.poll tree).2 scan := by
  cases hscan : Scan.ofTree tree initial.settings.repositoryDir with
  | error cause =>
      refine ⟨seen, ?_⟩
      rw [poll_of_error hstands.source hscan]
      refine ⟨hstands.source, hstands.workshop, ?_⟩
      rcases hstands.mirrors with hnothing | ⟨old, hold, hmirrors⟩
      · exact Or.inl hnothing
      · exact Or.inr ⟨old, List.mem_append_left _ hold, hmirrors⟩
  | ok scan =>
      have hmirrors := hstands.mirrors_poll hstandard hlayout hpast htree hscan
      refine ⟨scan, ?_, ?_, Or.inr ⟨tree, by simp, hscan, hmirrors⟩⟩
      · rw [poll_of_scan hstands.source hscan]
      · rw [poll_of_scan hstands.source hscan]
        exact hstands.workshop

/-- What a run keeps. -/
theorem Stands.pollAll
    {past : List FileTree} {monitor : Monitor} {seen : Scan}
    (hstands : Stands initial past monitor seen)
    {future : List FileTree}
    (hboth : past ++ future ⊆ trees) :
    ∃ scan, Stands initial (past ++ future) (monitor.pollAll future) scan := by
  induction future generalizing past monitor seen with
  | nil =>
      rw [List.append_nil]
      exact ⟨seen, hstands⟩
  | cons tree rest ih =>
      have hassoc : past ++ tree :: rest = past ++ [tree] ++ rest := by simp
      have hpast : past ⊆ trees := fun _ hmem => hboth (List.mem_append_left _ hmem)
      have htree : tree ∈ trees := hboth (by simp)
      obtain ⟨scan, hnext⟩ := hstands.poll hstandard hlayout hpast htree
      rw [hassoc] at hboth ⊢
      exact ih hnext hboth

end Run

end Monitor

namespace CompilerParts

variable {parts : CompilerParts} {compiler : Compiler} {exports : Option MetricRegistry}

/-- The monitor of a compiler that was built. -/
theorem monitor_of_build
    (hbuild : parts.build = .ok (compiler, exports))
    {catalog : FileTree → Catalog}
    (hcatalog : parts.catalog = some catalog) :
    compiler.monitor =
      { settings := parts.settings
        registry := parts.registry
        loader := parts.loader.getD (defaultLoader parts.settings)
        catalog
        source := parts.source.getD (defaultSource parts.settings) } := by
  unfold build at hbuild
  simp only [hcatalog, bind_eq_ok_iff] at hbuild
  obtain ⟨-, -, exported, -, hbuild⟩ := hbuild
  cases hbuild
  rfl

/-- After a poll that is answered, the graph of a compiler that follows its working copy mirrors it,
whatever was done to the files before and between the polls. -/
theorem pollAll_mirrors
    (hbuild : parts.build = .ok (compiler, exports))
    (hsource : parts.source = none)
    (hloader : parts.loader = none)
    {catalog : Catalog}
    (hcatalog : parts.catalog = some fun _ => catalog)
    {mappings : List (String × String)}
    (hregistry : parts.registry = .ofMappings mappings)
    (hroot : parts.settings.repositoryDir.fileName? ≠ some Scan.hiddenName)
    {history : List FileTree} {tree : FileTree}
    (hlayout : compiler.monitor.Layout (history ++ [tree]))
    (hanswered : compiler.monitor.Answered tree) :
    (compiler.monitor.workshop tree).Mirrors tree
      (compiler.monitor.pollAll (history ++ [tree])).graph := by
  have hmonitor := monitor_of_build hbuild hcatalog
  rw [hsource, hloader, hregistry] at hmonitor
  have hstandard : compiler.monitor.Standard := by
    rw [hmonitor]
    exact ⟨⟨catalog, rfl⟩, rfl, Registry.isBuiltin_ofMappings mappings, hroot⟩
  have hinitial : Monitor.Stands compiler.monitor [] compiler.monitor ∅ := by
    refine ⟨?_, rfl, Or.inl ⟨rfl, ?_⟩⟩
    · rw [hmonitor]
      rfl
    · intro entry
      rw [hmonitor]
      exact Graph.held_empty entry
  have hpast : [] ++ history ⊆ history ++ [tree] := List.subset_append_left _ _
  obtain ⟨seen, hstands⟩ := hinitial.pollAll hstandard hlayout hpast
  obtain ⟨scan, hscan⟩ := hanswered
  have hmirrors :=
    hstands.mirrors_poll hstandard hlayout hpast (List.mem_append_right _ List.mem_cons_self) hscan
  rw [Monitor.pollAll, List.foldl_append]
  exact hmirrors

/-- The templates of the station: there is just the one of its ferry. -/
def stationCatalog : Catalog :=
  TemplateShelf.catalog (.add ∅ (.ofProperties "FS:///ferry" ∅))

/-- A compiler that follows its working copy. -/
def station : CompilerParts where
  settings := { repositoryUri := some "file:///topology.git", graphDir := "flowgraph" }
  catalog := some fun _ => stationCatalog
  registry := .ofMappings [("lake", "fs")]

/-- The monitor of the station before its first poll. -/
def stationMonitor : Monitor where
  settings := station.settings
  registry := station.registry
  loader := defaultLoader station.settings
  catalog := fun _ => stationCatalog
  source := defaultSource station.settings

/-- Where the working copy of the station is. -/
def siteLocation : Location := [.ofText "work", .ofText "git-flowgraph"]

/-- A working copy with the files, and the directories that have no content. -/
def site (files : List (Location × Option (List UInt8))) : FileTree :=
  files.foldl (fun tree item =>
    tree.insert (siteLocation ++ item.1) (item.2.elim .directory .file)) (.empty (.ofText "work"))

/-- What the file of an edge says, before a last line. -/
def ferryText (line : String) : String :=
  "flow.edge.flowTemplateUri=FS:///ferry\n" ++
    "flow.edge.specExecutors.0.specExecInstance.class=boat\n" ++ line

/-- The file of the edge. -/
def ferryFile : Location :=
  [.ofText "flowgraph", .ofText "A", .ofText "B", .ofText "ferry.properties"]

/-- A node whose platform is told by an overlay, and an edge that leaves it. -/
def siteFiles (file content line : String) : List (Location × Option (List UInt8)) :=
  [([], none), ([.ofText "flowgraph"], none),
    ([.ofText "flowgraph", .ofText "site.conf"], some (Text.bytes "data.node.platform=hdfs")),
    ([.ofText "flowgraph", .ofText "A"], none),
    ([.ofText "flowgraph", .ofText "A", .ofText file], some (Text.bytes content)),
    ([.ofText "flowgraph", .ofText "A", .ofText "B"], none),
    (ferryFile, some (Text.bytes (ferryText line)))]

section Site

variable {files files' : List (Location × Option (List UInt8))}

theorem entry?_site
    {names : Location} {entry : Entry}
    (hentry : FileTree.entry? (site files) (siteLocation ++ names) = some entry) :
    ∃ item ∈ files, item.1 = names ∧ item.2.elim .directory .file = entry := by
  have hinserted :
      ∀ (tree : FileTree) (files : List (Location × Option (List UInt8))),
        FileTree.entry? (files.foldl (fun tree item => tree.insert (siteLocation ++ item.1)
          (item.2.elim .directory .file)) tree) (siteLocation ++ names) = some entry →
        tree.entry? (siteLocation ++ names) = some entry ∨
          ∃ item ∈ files, item.1 = names ∧ item.2.elim .directory .file = entry := by
    intro tree files hheld
    induction files generalizing tree with
    | nil => exact Or.inl hheld
    | cons item rest ih =>
        rcases ih _ hheld with hbefore | ⟨other, hother, hnames⟩
        · have hne : siteLocation ++ names ≠ [] := by simp [siteLocation]
          rw [FileTree.entry?_of_ne_nil hne] at hbefore
          simp only [FileTree.insert, Std.ExtTreeMap.getElem?_insert,
            Std.LawfulEqOrd.compare_eq_iff_eq] at hbefore
          split at hbefore
          · next hsame =>
            exact Or.inr ⟨item, List.mem_cons_self, List.append_cancel_left hsame,
              Option.some.inj hbefore⟩
          · rw [FileTree.entry?_of_ne_nil hne]
            exact Or.inl hbefore
        · exact Or.inr ⟨other, List.mem_cons_of_mem _ hother, hnames⟩
  refine (hinserted _ files hentry).resolve_left ?_
  have hne : siteLocation ++ names ≠ [] := by simp [siteLocation]
  rw [FileTree.entry?_of_ne_nil hne]
  simp [FileTree.empty, FileTree.insert, siteLocation]

variable (hlocate : (site files).locate station.settings.repositoryDir = .ok siteLocation)

include hlocate

theorem hasFile_site
    {names : Location} {content : List UInt8}
    (hfile : (site files).HasFile station.settings.repositoryDir names content) :
    (names, some content) ∈ files := by
  obtain ⟨location, hfound, hentry⟩ := hfile
  cases hlocate.symm.trans hfound
  obtain ⟨⟨_, held⟩, hitem, rfl, hheld⟩ := entry?_site hentry
  cases held with
  | none => cases hheld
  | some held =>
      cases hheld
      exact hitem

theorem workingCopy_site
    (hfiles : ∀ item ∈ files, Scan.hiddenName ∉ item.1 ∧ ∀ name ∈ item.1, name.Ordinary) :
    (site files).WorkingCopy station.settings.repositoryDir := by
  constructor
  · intro location hfound names target hentry
    cases hlocate.symm.trans hfound
    obtain ⟨⟨_, held⟩, -, -, hheld⟩ := entry?_site hentry
    cases held with
    | none => cases hheld
    | some held => cases hheld
  · intro location names entry hfound hentry
    cases hlocate.symm.trans hfound
    obtain ⟨item, hitem, rfl, -⟩ := entry?_site hentry
    exact (hfiles item hitem).2
  · intro location names entry hfound hentry
    cases hlocate.symm.trans hfound
    obtain ⟨item, hitem, rfl, -⟩ := entry?_site hentry
    exact (hfiles item hitem).1

theorem documented_site
    (hdeclares :
      ∀ item ∈ files, ((stationMonitor.workshop (site files)).entryOf? (.ofNames item.1)).isSome →
        ((stationMonitor.workshop (site files)).element?
          (station.settings.roleOf (.ofNames item.1)) (.ofNames item.1)).isSome)
    (hdistinct :
      ∀ item ∈ files, ∀ other ∈ files,
        ((stationMonitor.workshop (site files)).entryOf? (.ofNames item.1)).isSome →
        (stationMonitor.workshop (site files)).entryOf? (.ofNames item.1) =
          (stationMonitor.workshop (site files)).entryOf? (.ofNames other.1) →
        item.1 = other.1) :
    (stationMonitor.workshop (site files)).Documented (site files) := by
  constructor
  · intro names content entry hfile hnamed
    have helement := hdeclares _ (hasFile_site hlocate hfile) (by rw [hnamed]; rfl)
    obtain ⟨element, helement⟩ := Option.isSome_iff_exists.mp helement
    obtain ⟨found, hdeclared⟩ := Workshop.element?_eq_some_iff.mp helement
    cases hdeclared.entryOf?_eq.symm.trans hnamed
    exact ⟨element, hdeclared⟩
  · intro names content other content' entry hfile hfile' hnamed hnamed'
    exact hdistinct _ (hasFile_site hlocate hfile) _ (hasFile_site hlocate hfile')
      (by rw [hnamed]; rfl) (hnamed.trans hnamed'.symm)

/-- Two of these working copies hold the same files of a kind, if each of them has those of the
other. -/
theorem hasFile_site_iff
    (hlocate' : (site files').locate station.settings.repositoryDir = .ok siteLocation)
    (IsOfKind : Location → Prop)
    (hfiles :
      ∀ item ∈ files, IsOfKind item.1 →
        FileTree.entry? (site files') (siteLocation ++ item.1) =
          some (item.2.elim .directory .file))
    (hfiles' :
      ∀ item ∈ files', IsOfKind item.1 →
        FileTree.entry? (site files) (siteLocation ++ item.1) =
          some (item.2.elim .directory .file))
    {names : Location} {content : List UInt8}
    (hkind : IsOfKind names) :
    (site files).HasFile station.settings.repositoryDir names content ↔
      (site files').HasFile station.settings.repositoryDir names content := by
  constructor
  · intro hfile
    exact ⟨siteLocation, hlocate', hfiles _ (hasFile_site hlocate hfile) hkind⟩
  · intro hfile
    exact ⟨siteLocation, hlocate, hfiles' _ (hasFile_site hlocate' hfile) hkind⟩

end Site

/-- The working copy before the file of the node is moved and edited, and that of the edge is
edited. -/
def siteBefore : FileTree := site (siteFiles "A.properties" "" "")

/-- The working copy after that. -/
def siteAfter : FileTree :=
  site (siteFiles "A.props" "data.node.isActive=false" "flow.edge.isActive=false")

/-- The files of both working copies. -/
def siteHistory : List (List (Location × Option (List UInt8))) :=
  [siteFiles "A.properties" "" "",
    siteFiles "A.props" "data.node.isActive=false" "flow.edge.isActive=false"]

theorem layout_station :
    stationMonitor.Layout ([.empty (.ofText "work"), siteBefore] ++ [siteAfter]) := by
  have hsites :
      ∀ tree ∈ FileTree.empty (.ofText "work") :: siteHistory.map site,
        stationMonitor.Answered tree → ∃ files ∈ siteHistory, site files = tree := by
    intro tree htree hanswered
    rcases List.mem_cons.mp htree with hempty | hsite
    · have hmissing :
          (Scan.ofTree (.empty (.ofText "work")) stationMonitor.settings.repositoryDir).isOk =
            false := by
        decide +kernel
      obtain ⟨scan, hscan⟩ := hanswered
      rw [hempty] at hscan
      rw [hscan] at hmissing
      cases hmissing
    · exact List.mem_map.mp hsite
  have hlocate :
      ∀ files ∈ siteHistory,
        (site files).locate stationMonitor.settings.repositoryDir = .ok siteLocation := by
    decide +kernel
  constructor
  · have hnames :
        ∀ files ∈ siteHistory, ∀ item ∈ files,
          Scan.hiddenName ∉ item.1 ∧ ∀ name ∈ item.1, name.Ordinary := by
      decide +kernel
    intro tree htree hanswered
    obtain ⟨files, hfiles, rfl⟩ := hsites tree htree hanswered
    exact workingCopy_site (hlocate files hfiles) (hnames files hfiles)
  · have hdeclares :
        ∀ files ∈ siteHistory, ∀ item ∈ files,
          ((stationMonitor.workshop (site files)).entryOf? (.ofNames item.1)).isSome →
            ((stationMonitor.workshop (site files)).element?
              (station.settings.roleOf (.ofNames item.1)) (.ofNames item.1)).isSome := by
      decide +kernel
    have hdistinct :
        ∀ files ∈ siteHistory, ∀ item ∈ files, ∀ other ∈ files,
          ((stationMonitor.workshop (site files)).entryOf? (.ofNames item.1)).isSome →
          (stationMonitor.workshop (site files)).entryOf? (.ofNames item.1) =
            (stationMonitor.workshop (site files)).entryOf? (.ofNames other.1) →
          item.1 = other.1 := by
      decide +kernel
    intro tree htree hanswered
    obtain ⟨files, hfiles, rfl⟩ := hsites tree htree hanswered
    exact documented_site (hlocate files hfiles) (hdeclares files hfiles) (hdistinct files hfiles)
  · have hsame :
        ∀ files ∈ siteHistory, ∀ files' ∈ siteHistory, ∀ item ∈ files,
          (Path.ofNames item.1).hasExtension stationMonitor.settings.overlayExtensions = true →
            FileTree.entry? (site files') (siteLocation ++ item.1) =
              some (item.2.elim .directory .file) := by
      decide +kernel
    intro tree htree tree' htree' hanswered hanswered'
    obtain ⟨files, hfiles, rfl⟩ := hsites tree htree hanswered
    obtain ⟨files', hfiles', rfl⟩ := hsites tree' htree' hanswered'
    intro names content hextension
    exact hasFile_site_iff (hlocate files hfiles) (hlocate files' hfiles')
      (fun names => (Path.ofNames names).hasExtension _ = true)
      (hsame files hfiles files' hfiles') (hsame files' hfiles' files hfiles) hextension

/-- Whether the node and the edge of the station are active after polls, if they are there. -/
def activityAfter (trees : List FileTree) : Option Bool × Option Bool :=
  let graph := (stationMonitor.pollAll trees).graph
  (graph.nodes["A"]?.map Node.active, graph.edges["A_B_ferry"]?.map Edge.active)

theorem pollAll_mirrors_station :
    station.build = .ok (⟨stationMonitor, {}⟩, none) ∧
      stationMonitor.Layout ([.empty (.ofText "work"), siteBefore] ++ [siteAfter]) ∧
      stationMonitor.Answered siteAfter ∧
      (stationMonitor.workshop siteAfter).Mirrors siteAfter
        (stationMonitor.pollAll ([.empty (.ofText "work"), siteBefore] ++ [siteAfter])).graph ∧
      activityAfter [.empty (.ofText "work"), siteBefore] = (some true, some true) ∧
      activityAfter ([.empty (.ofText "work"), siteBefore] ++ [siteAfter]) =
        (some false, some false) := by
  have hanswered : stationMonitor.Answered siteAfter := by
    have hok : (Scan.ofTree siteAfter stationMonitor.settings.repositoryDir).isOk = true := by
      decide +kernel
    cases hscan : Scan.ofTree siteAfter stationMonitor.settings.repositoryDir with
    | ok scan => exact ⟨scan, hscan⟩
    | error cause =>
        rw [hscan] at hok
        cases hok
  have hbuild : station.build = .ok (⟨stationMonitor, {}⟩, none) := rfl
  have hactive :
      activityAfter [.empty (.ofText "work"), siteBefore] = (some true, some true) ∧
        activityAfter ([.empty (.ofText "work"), siteBefore] ++ [siteAfter]) =
          (some false, some false) := by
    decide +kernel
  have hmirrors :=
    pollAll_mirrors hbuild rfl rfl rfl rfl (by decide) layout_station hanswered
  exact ⟨hbuild, layout_station, hanswered, hmirrors, hactive⟩

end CompilerParts

end HopRouting
