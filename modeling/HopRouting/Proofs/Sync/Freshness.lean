import Mathlib.Data.List.Induction
import HopRouting.Proofs.Sync.Accounts

/-!
# What overlays do to the graph

Overlays are files that add properties to others, and nothing is done about an overlay itself: it is
skipped, or ignored if it does not lie where elements are declared.  So when an overlay comes, goes
or is edited, no element below it is built anew: it stays as it was at the last poll that told of
its own file.

**Invariant.**  `Recalls`: the graph holds, for every file of the last scan, what the file declared
at the last poll that told of it; and since then the file has had the same content.

**Results.**  So it is with a compiler that follows its working copy (`pollAll_keeps`): what a poll
tells of overlays is that they were skipped or ignored, and the graph is what the other operations
make of it.  An element has the properties that its file was read with at the last poll that told of
it, and they are still those that the file is read with if the overlays on the way to it are the
same; otherwise they need not be (`not_reflects_overlays`).
-/

namespace HopRouting

/-- The declaration that an element was built from. -/
def Element.properties : Element → PropertySet
  | .node own => own.properties
  | .edge own => own.properties

/-- Properties with the words that a role tells written over them. -/
def PathRole.stamp : PathRole → PropertySet → PropertySet
  | node id, properties => Workshop.stampNode properties id
  | edge source destination name, properties =>
    Workshop.stampEdge properties source destination name
  | skipped _, properties => properties
  | ignored, properties => properties

namespace Settings

/-- A path of a file that only adds properties to others. -/
def IsOverlay (settings : Settings) (path : Path) : Prop :=
  path.extensionText?.getD "" ∈ settings.overlayExtensions ∧
    path.extensionText?.getD "" ∉ settings.propertyExtensions

instance (settings : Settings) (path : Path) : Decidable (settings.IsOverlay path) :=
  inferInstanceAs (Decidable (_ ∧ _))

section Overlays

variable {settings : Settings} {path : Path}

/-- An extension that is not one of those that declare something decides the role of a path. -/
theorem IsOverlay.roleUnless_eq
    (hoverlay : settings.IsOverlay path)
    (top : String)
    (role : String → PathRole) :
    settings.roleUnless path top role = .skipped .overlayFile := by
  have hreason : settings.skipReason? path top = some .overlayFile := by
    simp [skipReason?, hoverlay.1, hoverlay.2]
  rw [roleUnless, hreason]

/-- An overlay has no part in the graph. -/
theorem IsOverlay.roleOf_eq
    (hoverlay : settings.IsOverlay path) :
    settings.roleOf path = .skipped .overlayFile ∨ settings.roleOf path = .ignored := by
  unfold roleOf
  split
  · exact Or.inl (hoverlay.roleUnless_eq _ _)
  · exact Or.inl (hoverlay.roleUnless_eq _ _)
  · exact Or.inr rfl

end Overlays

end Settings

namespace Workshop

/-- Operations without those that are about overlays. -/
def withoutOverlays (workshop : Workshop) (operations : List Operation) : List Operation :=
  operations.filter fun operation => ¬ workshop.settings.IsOverlay operation.path

section Overlays

variable {workshop : Workshop}

/-- Nothing is done about an overlay. -/
theorem perform_of_isOverlay
    {operation : Operation}
    (hoverlay : workshop.settings.IsOverlay operation.path)
    (graph : Graph) :
    ((workshop.perform graph operation).1 = .skipped .overlayFile ∨
      (workshop.perform graph operation).1 = .ignored) ∧
    (workshop.perform graph operation).2 = graph := by
  rcases hoverlay.roleOf_eq with hrole | hrole
  · rw [perform_of_skipped hrole graph]
    exact ⟨Or.inl rfl, rfl⟩
  · rw [perform_of_ignored hrole graph]
    exact ⟨Or.inr rfl, rfl⟩

/-- Whatever else is done, overlays are skipped or ignored. -/
theorem outcome_of_isOverlay
    {graph : Graph} {operations : List Operation} {path : Path} {outcome : Outcome}
    (hmem : (path, outcome) ∈ (workshop.performAll graph operations).1)
    (hoverlay : workshop.settings.IsOverlay path) :
    outcome = .skipped .overlayFile ∨ outcome = .ignored := by
  induction operations generalizing graph with
  | nil => cases hmem
  | cons operation rest ih =>
      rcases List.mem_cons.mp hmem with hfirst | hrest
      · cases hfirst
        exact (perform_of_isOverlay hoverlay graph).1
      · exact ih hrest

/-- Operations make the same of a graph as those of them that are not about overlays. -/
theorem performAll_withoutOverlays
    (workshop : Workshop)
    (graph : Graph)
    (operations : List Operation) :
    (workshop.performAll graph (workshop.withoutOverlays operations)).2 =
      (workshop.performAll graph operations).2 := by
  induction operations generalizing graph with
  | nil => rfl
  | cons operation rest ih =>
      by_cases hoverlay : workshop.settings.IsOverlay operation.path
      · have hdropped :
            workshop.withoutOverlays (operation :: rest) = workshop.withoutOverlays rest := by
          simp [withoutOverlays, hoverlay]
        have hnext : (workshop.perform graph operation).2 = graph :=
          (perform_of_isOverlay hoverlay graph).2
        rw [hdropped, ih graph]
        simp only [performAll, hnext]
      · have hdone :
            workshop.withoutOverlays (operation :: rest) =
              operation :: workshop.withoutOverlays rest := by
          simp [withoutOverlays, hoverlay]
        rw [hdone]
        exact ih (workshop.perform graph operation).2

end Overlays

/-- The element has exactly the properties that the file at a path is read with, under the identity
that the path tells. -/
def Reflects (workshop : Workshop) (path : Path) (element : Element) : Prop :=
  ∃ properties, workshop.load (workshop.settings.repositoryDir.join path) = .ok properties ∧
    element.properties = (workshop.settings.roleOf path).stamp properties

section Reflections

variable {workshop : Workshop} {path : Path} {entry : Graph.Entry} {element : Element}

/-- Builders of the library keep what a file declares. -/
theorem Declares.reflects
    (hbuiltin : workshop.registry.IsBuiltin)
    (hdeclares : workshop.Declares path entry element) :
    workshop.Reflects path element := by
  cases hdeclares with
  | @node id properties built hrole hloaded hbuild =>
      refine ⟨properties, hloaded, ?_⟩
      rw [hrole]
      exact (hbuiltin.declaredBy_of_buildNode hbuild).properties_eq
  | @edge source destination name properties built hrole hloaded hbuild =>
      refine ⟨properties, hloaded, ?_⟩
      rw [hrole]
      exact (hbuiltin.declaredBy_of_buildEdge hbuild).properties_eq

end Reflections

end Workshop

namespace Monitor

/-- The report on the poll has an outcome for the path. -/
def Tells (monitor : Monitor) (path : Path) (tree : FileTree) : Prop :=
  path ∈ (monitor.poll tree).1.outcomes.map Prod.fst

/-- Of the polls with these trees, the one with `read` is the last that told of the path. -/
inductive LastTold (initial : Monitor) (path : Path) : List FileTree → FileTree → Prop
  | told {past : List FileTree} {tree : FileTree}
      (tells : (initial.pollAll past).Tells path tree) :
      LastTold initial path (past ++ [tree]) tree
  | silent {past : List FileTree} {tree read : FileTree}
      (silent : ¬ (initial.pollAll past).Tells path tree)
      (before : LastTold initial path past read) :
      LastTold initial path (past ++ [tree]) read

/-- Whatever is scanned, every file that names an entry declares an element, and no two files name
the same entry. -/
def DocumentedAt (monitor : Monitor) (trees : List FileTree) : Prop :=
  ∀ tree ∈ trees, ∀ scan, Scan.ofTree tree monitor.settings.repositoryDir = .ok scan →
    (monitor.workshop tree).DocumentedIn scan

/-- A poll does what follows the changes that it is told of. -/
theorem poll_performs
    (monitor : Monitor)
    (tree : FileTree) :
    let operations := (monitor.tidings tree).flatMap Change.operations
    let performed := (monitor.workshop tree).performAll monitor.graph operations
    (monitor.poll tree).1.outcomes = performed.1 ∧ (monitor.poll tree).2.graph = performed.2 := by
  unfold poll tidings
  split
  · next changes source hpolled =>
    rw [hpolled]
    exact ⟨rfl, rfl⟩
  · next cause source hpolled =>
    rw [hpolled]
    exact ⟨rfl, rfl⟩

theorem DocumentedAt.of_append_left
    {monitor : Monitor} {front back : List FileTree}
    (hdocumented : monitor.DocumentedAt (front ++ back)) :
    monitor.DocumentedAt front :=
  fun tree htree => hdocumented tree (List.mem_append_left _ htree)

section Told

variable {initial : Monitor} {path : Path} {past : List FileTree} {tree read : FileTree}

theorem LastTold.unique
    (hlast : initial.LastTold path past read)
    {other : FileTree}
    (hother : initial.LastTold path past other) :
    read = other := by
  induction hlast with
  | @told before tree htells =>
      generalize htrees : before ++ [tree] = trees at hother
      cases hother with
      | told _ =>
          exact (List.cons.inj (List.append_inj' htrees rfl).2).1
      | silent hsilent _ =>
          obtain ⟨rfl, hsame⟩ := List.append_inj' htrees rfl
          cases hsame
          exact absurd htells hsilent
  | @silent before tree _ hsilent _ ih =>
      generalize htrees : before ++ [tree] = trees at hother
      cases hother with
      | told htells =>
          obtain ⟨rfl, hsame⟩ := List.append_inj' htrees rfl
          cases hsame
          exact absurd htells hsilent
      | silent _ hbefore =>
          obtain ⟨rfl, -⟩ := List.append_inj' htrees rfl
          exact ih hbefore

/-- A file is told of if it is not what it was, provided that no two files of a scan name the same
entry. -/
theorem tells_iff
    {monitor : Monitor} {root : Path} {seen scan : Scan}
    (hsource : monitor.source = .directory ⟨root, seen⟩)
    (hscan : Scan.ofTree tree root = .ok scan)
    {workshop : Workshop}
    (hbefore : workshop.Distinct seen)
    (hafter : workshop.Distinct scan)
    {names : Location} {entry : Graph.Entry}
    (hnames : names ∈ scan)
    (hentry : workshop.entryOf? (.ofNames names) = some entry) :
    monitor.Tells (.ofNames names) tree ↔ seen[names]? ≠ scan[names]? := by
  obtain ⟨content, hcontent⟩ := Scan.mem_iff_exists.mp hnames
  rw [Tells, mem_paths_iff hsource hscan]
  constructor
  · rintro ⟨other, hgone | htouched, hpath⟩ hsame
    · have hstayed : names ∈ seen := Scan.mem_iff_exists.mpr ⟨content, hsame.trans hcontent⟩
      obtain ⟨hpast, habsent⟩ := (seen.mem_gone_iff scan).mp hgone
      rw [← hbefore names hstayed other hpast entry hentry (hpath ▸ hentry), hcontent] at habsent
      cases habsent
    · obtain ⟨found, hfound, hdifferent⟩ := (seen.mem_touched_iff scan).mp htouched
      have hother : other ∈ scan := Scan.mem_iff_exists.mpr ⟨found, hfound⟩
      rw [← hafter names hnames other hother entry hentry (hpath ▸ hentry)] at hfound hdifferent
      exact hdifferent (hsame.trans hfound)
  · intro hdifferent
    rw [hcontent] at hdifferent
    exact ⟨names, Or.inr ((seen.mem_touched_iff scan).mpr ⟨content, hcontent, hdifferent⟩), rfl⟩

end Told

/-- The graph holds what the file declared when it was last told of, and its content is still what
it was then. -/
structure Kept (initial : Monitor) (past : List FileTree) (seen : Scan) (names : Location)
    (entry : Graph.Entry) (read : FileTree) (element : Element) : Prop where
  last : initial.LastTold (.ofNames names) past read
  declared : (initial.workshop read).Declares (.ofNames names) entry element
  held : (initial.pollAll past).graph.held entry = some element
  same :
    ∃ scan, Scan.ofTree read initial.settings.repositoryDir = .ok scan ∧
      scan[names]? = seen[names]?

/-- What is true of a monitor of a working copy after polls: it builds elements as before, remembers
the last scan, and its graph holds something for the files of that scan, and for nothing else. -/
structure Recalls (initial : Monitor) (past : List FileTree) (seen : Scan) : Prop where
  source :
    (initial.pollAll past).source = .directory ⟨initial.settings.repositoryDir, seen⟩
  workshop : (initial.pollAll past).workshop = initial.workshop
  scanned :
    seen = ∅ ∨ ∃ tree ∈ past, Scan.ofTree tree initial.settings.repositoryDir = .ok seen
  entries :
    ∀ entry element, (initial.pollAll past).graph.held entry = some element →
      ∃ names ∈ seen, PathRole.entry? (initial.settings.roleOf (.ofNames names)) = some entry
  files :
    ∀ names ∈ seen, ∀ entry,
      PathRole.entry? (initial.settings.roleOf (.ofNames names)) = some entry →
        ∃ read element, initial.Kept past seen names entry read element

section Run

variable {initial : Monitor} {past : List FileTree} {seen : Scan}

theorem Recalls.distinct
    (hrecalls : initial.Recalls past seen)
    (hdocumented : initial.DocumentedAt past)
    (tree : FileTree) :
    (initial.workshop tree).Distinct seen := by
  rcases hrecalls.scanned with rfl | ⟨read, hread, hscan⟩
  · intro names hnames
    exact absurd hnames Std.ExtTreeMap.not_mem_empty
  · exact (hdocumented read hread seen hscan).distinct

theorem recalls_nil
    (hsource : initial.source = .directory (.ofRoot initial.settings.repositoryDir))
    (hgraph : initial.graph = .empty) :
    initial.Recalls [] ∅ := by
  refine ⟨hsource, rfl, Or.inl rfl, ?_, ?_⟩
  · intro entry element hheld
    rw [pollAll, List.foldl_nil, hgraph, Graph.held_empty] at hheld
    cases hheld
  · intro names hnames
    exact absurd hnames Std.ExtTreeMap.not_mem_empty

/-- A poll that fails tells of nothing and changes nothing. -/
theorem Recalls.poll_of_error
    (hrecalls : initial.Recalls past seen)
    {tree : FileTree} {cause : SourceError}
    (herror : Scan.ofTree tree initial.settings.repositoryDir = .error cause) :
    initial.Recalls (past ++ [tree]) seen := by
  have hmonitor : initial.pollAll (past ++ [tree]) = initial.pollAll past := by
    rw [pollAll_append]
    exact Monitor.poll_of_error hrecalls.source herror
  have hsilent : ∀ path, ¬ (initial.pollAll past).Tells path tree := by
    intro path
    rw [Tells, report_of_error hrecalls.source herror]
    exact List.not_mem_nil
  constructor
  · rw [hmonitor, hrecalls.source]
  · rw [hmonitor, hrecalls.workshop]
  · rcases hrecalls.scanned with hnothing | ⟨read, hread, hscan⟩
    · exact Or.inl hnothing
    · exact Or.inr ⟨read, List.mem_append_left _ hread, hscan⟩
  · rw [hmonitor]
    exact hrecalls.entries
  · intro names hnames entry hentry
    obtain ⟨read, element, hkept⟩ := hrecalls.files names hnames entry hentry
    refine ⟨read, element, .silent (hsilent _) hkept.last, hkept.declared, ?_, hkept.same⟩
    rw [hmonitor, hkept.held]

/-- A poll that is answered builds anew what it tells of, and leaves the rest as it is. -/
theorem Recalls.poll_of_scan
    (hbuiltin : initial.registry.IsBuiltin)
    (hrecalls : initial.Recalls past seen)
    {tree : FileTree}
    (hdocumented : initial.DocumentedAt (past ++ [tree]))
    {scan : Scan}
    (hscan : Scan.ofTree tree initial.settings.repositoryDir = .ok scan) :
    initial.Recalls (past ++ [tree]) scan := by
  have hnow : (initial.workshop tree).DocumentedIn scan := hdocumented tree (by simp) scan hscan
  have hbefore : (initial.workshop tree).Distinct seen :=
    hrecalls.distinct hdocumented.of_append_left tree
  have hworkshop : (initial.pollAll past).workshop tree = initial.workshop tree := by
    rw [hrecalls.workshop]
  have hpolled :
      initial.pollAll (past ++ [tree]) =
        { initial.pollAll past with
          source := .directory ⟨initial.settings.repositoryDir, scan⟩
          graph :=
            ((initial.workshop tree).process (initial.pollAll past).graph
              (seen.changes scan)).2 } := by
    rw [pollAll_append, ← hworkshop]
    exact Monitor.poll_of_scan hrecalls.source hscan
  have hheld :
      ∀ entry element, (initial.pollAll (past ++ [tree])).graph.held entry = some element ↔
        ∃ names ∈ scan, (initial.workshop tree).entryOf? (.ofNames names) = some entry ∧
          (seen[names]? = scan[names]? ∧
              (initial.pollAll past).graph.held entry = some element ∨
            seen[names]? ≠ scan[names]? ∧
              (initial.workshop tree).Declares (.ofNames names) entry element) := by
    intro entry element
    rw [hpolled]
    exact Workshop.held_process_changes_of_distinct hbuiltin hrecalls.entries hbefore hnow
  constructor
  · rw [hpolled]
  · rw [hpolled, ← hrecalls.workshop]
    rfl
  · exact Or.inr ⟨tree, by simp, hscan⟩
  · intro entry element hfound
    obtain ⟨names, hnames, hentry, -⟩ := (hheld entry element).mp hfound
    exact ⟨names, hnames, hentry⟩
  · intro names hnames entry hentry
    have htells :
        (initial.pollAll past).Tells (.ofNames names) tree ↔ seen[names]? ≠ scan[names]? :=
      tells_iff hrecalls.source hscan hbefore hnow.distinct hnames hentry
    by_cases hsame : seen[names]? = scan[names]?
    · obtain ⟨content, hcontent⟩ := Scan.mem_iff_exists.mp hnames
      have hstayed : names ∈ seen := Scan.mem_iff_exists.mpr ⟨content, hsame.trans hcontent⟩
      obtain ⟨read, element, hkept⟩ := hrecalls.files names hstayed entry hentry
      refine ⟨read, element, ?_, hkept.declared, ?_, ?_⟩
      · exact .silent (fun htold => htells.mp htold hsame) hkept.last
      · exact (hheld entry element).mpr ⟨names, hnames, hentry, Or.inl ⟨hsame, hkept.held⟩⟩
      · rw [← hsame]
        exact hkept.same
    · obtain ⟨element, hdeclares⟩ := hnow.declares names hnames entry hentry
      refine ⟨tree, element, .told (htells.mpr hsame), hdeclares, ?_, scan, hscan, rfl⟩
      exact (hheld entry element).mpr ⟨names, hnames, hentry, Or.inr ⟨hsame, hdeclares⟩⟩

/-- What a run keeps. -/
theorem exists_recalls
    (hbuiltin : initial.registry.IsBuiltin)
    (hinitial : initial.Recalls [] ∅)
    (hdocumented : initial.DocumentedAt past) :
    ∃ seen, initial.Recalls past seen := by
  induction past using List.reverseRecOn with
  | nil => exact ⟨∅, hinitial⟩
  | append_singleton past tree ih =>
      obtain ⟨seen, hrecalls⟩ := ih hdocumented.of_append_left
      cases hscan : Scan.ofTree tree initial.settings.repositoryDir with
      | error cause => exact ⟨seen, hrecalls.poll_of_error hscan⟩
      | ok scan => exact ⟨scan, hrecalls.poll_of_scan hbuiltin hdocumented hscan⟩

end Run

/-- Where the overlays on the way to a file are the same as when it was last told of, the file is
read as it was then. -/
theorem Kept.reflects_of_agreeAbove
    {initial : Monitor} {past : List FileTree} {tree read : FileTree} {scan : Scan}
    {names : Location} {entry : Graph.Entry} {element : Element}
    (hkept : initial.Kept past scan names entry read element)
    (hloader : initial.loader = CompilerParts.defaultLoader initial.settings)
    (hscan : Scan.ofTree tree initial.settings.repositoryDir = .ok scan)
    (hnow : (initial.workshop tree).DocumentedIn scan)
    (hnames : names ∈ scan)
    (hregular : read.Regular initial.settings.repositoryDir)
    (hregular' : tree.Regular initial.settings.repositoryDir)
    (hagree :
      read.AgreeAbove tree initial.settings.repositoryDir names
        initial.settings.overlayExtensions)
    (hreflects : (initial.workshop read).Reflects (.ofNames names) element) :
    (initial.workshop tree).Reflects (.ofNames names) element := by
  have hroot := Scan.ne_hiddenName_of_mem_ofTree hscan hnames
  obtain ⟨content, hcontent⟩ := Scan.mem_iff_exists.mp hnames
  obtain ⟨found, hfound, hsame⟩ := hkept.same
  obtain ⟨-, hfile⟩ := (Scan.getElem?_ofTree_iff hroot hfound).mp (hsame.trans hcontent)
  obtain ⟨-, hfile'⟩ := (Scan.getElem?_ofTree_iff hroot hscan).mp hcontent
  obtain ⟨element', hdeclares'⟩ := hnow.declares names hnames entry hkept.declared.entryOf?_eq
  have hload :=
    load_eq_of_declares hloader hregular hregular' hagree hfile hfile' hkept.declared hdeclares'
  obtain ⟨properties, hloaded, hproperties⟩ := hreflects
  exact ⟨properties, hload.symm.trans hloaded, hproperties⟩

end Monitor

namespace CompilerParts

variable {parts : CompilerParts} {compiler : Compiler} {exports : Option MetricRegistry}

/-- A poll that is answered skips or ignores overlays, and the other operations alone make the graph
what it is.  After it the graph holds an element for every file of the working copy that names an
entry, and for nothing else.  The element has the properties that the file was read with at the last
poll that told of it; they are those that it is read with now if the overlays in the directories
above it are the same. -/
theorem pollAll_keeps
    (hbuild : parts.build = .ok (compiler, exports))
    (hsource : parts.source = none)
    (hloader : parts.loader = none)
    {catalog : FileTree → Catalog}
    (hcatalog : parts.catalog = some catalog)
    {mappings : List (String × String)}
    (hregistry : parts.registry = .ofMappings mappings)
    {history : List FileTree} {tree : FileTree} {scan : Scan}
    (hdocumented : compiler.monitor.DocumentedAt (history ++ [tree]))
    (hscan : Scan.ofTree tree compiler.monitor.settings.repositoryDir = .ok scan) :
    (∀ path outcome,
      (path, outcome) ∈ ((compiler.monitor.pollAll history).poll tree).1.outcomes →
        compiler.monitor.settings.IsOverlay path →
          outcome = .skipped .overlayFile ∨ outcome = .ignored) ∧
    (compiler.monitor.pollAll (history ++ [tree])).graph =
      ((compiler.monitor.workshop tree).performAll (compiler.monitor.pollAll history).graph
        ((compiler.monitor.workshop tree).withoutOverlays
          (((compiler.monitor.pollAll history).tidings tree).flatMap Change.operations))).2 ∧
    (∀ entry element,
      (compiler.monitor.pollAll (history ++ [tree])).graph.held entry = some element →
        ∃ names ∈ scan,
          (compiler.monitor.workshop tree).entryOf? (.ofNames names) = some entry) ∧
    (∀ names ∈ scan, ∀ entry,
      (compiler.monitor.workshop tree).entryOf? (.ofNames names) = some entry →
        ∃ read element,
          compiler.monitor.LastTold (.ofNames names) (history ++ [tree]) read ∧
          (compiler.monitor.pollAll (history ++ [tree])).graph.held entry = some element ∧
          (compiler.monitor.workshop read).Declares (.ofNames names) entry element ∧
          (compiler.monitor.workshop read).Reflects (.ofNames names) element ∧
          (read.Regular compiler.monitor.settings.repositoryDir →
            tree.Regular compiler.monitor.settings.repositoryDir →
            read.AgreeAbove tree compiler.monitor.settings.repositoryDir names
              compiler.monitor.settings.overlayExtensions →
              (compiler.monitor.workshop tree).Reflects (.ofNames names) element)) := by
  have hmonitor := monitor_of_build hbuild hcatalog
  rw [hsource, hloader, hregistry] at hmonitor
  have hbuiltin : compiler.monitor.registry.IsBuiltin := by
    rw [hmonitor]
    exact Registry.isBuiltin_ofMappings mappings
  have hdefault : compiler.monitor.loader = defaultLoader compiler.monitor.settings := by
    rw [hmonitor]
    rfl
  have hinitial : compiler.monitor.Recalls [] ∅ := by
    apply Monitor.recalls_nil
    · rw [hmonitor]
      rfl
    · rw [hmonitor]
  obtain ⟨seen, hbefore⟩ :=
    Monitor.exists_recalls hbuiltin hinitial hdocumented.of_append_left
  have hrecalls := hbefore.poll_of_scan hbuiltin hdocumented hscan
  have hnow := hdocumented tree (by simp) scan hscan
  obtain ⟨houtcomes, hgraph⟩ := (compiler.monitor.pollAll history).poll_performs tree
  rw [hbefore.workshop] at houtcomes hgraph
  refine ⟨?_, ?_, hrecalls.entries, ?_⟩
  · intro path outcome hmem hoverlay
    rw [houtcomes] at hmem
    exact Workshop.outcome_of_isOverlay hmem hoverlay
  · rw [Workshop.performAll_withoutOverlays, Monitor.pollAll_append]
    exact hgraph
  intro names hnames entry hentry
  obtain ⟨read, element, hkept⟩ := hrecalls.files names hnames entry hentry
  have hreflects : (compiler.monitor.workshop read).Reflects (.ofNames names) element :=
    hkept.declared.reflects hbuiltin
  refine ⟨read, element, hkept.last, hkept.held, hkept.declared, hreflects, ?_⟩
  intro hregular hregular' hagree
  exact hkept.reflects_of_agreeAbove hdefault hscan hnow hnames hregular hregular' hagree
    hreflects

section Overlaid

/-- The file of the node. -/
def nodeFile : Location := [.ofText "flowgraph", .ofText "A", .ofText "A.properties"]

/-- A working copy in which an overlay tells the platform of the node. -/
def overlaidFiles (platform : String) : List (Location × Option (List UInt8)) :=
  [([], none), ([.ofText "flowgraph"], none),
    ([.ofText "flowgraph", .ofText "site.conf"],
      some (Text.bytes ("data.node.platform=" ++ platform))),
    ([.ofText "flowgraph", .ofText "A"], none), (nodeFile, some (Text.bytes ""))]

/-- The same working copy with the file of an edge. -/
def crossedFiles : List (Location × Option (List UInt8)) :=
  overlaidFiles "hdfs" ++
    [([.ofText "flowgraph", .ofText "A", .ofText "B"], none),
      (ferryFile, some (Text.bytes (ferryText "")))]

/-- The file of another node. -/
def otherFile : Location := [.ofText "flowgraph", .ofText "B", .ofText "B.properties"]

/-- The overlay of the other node. -/
def otherOverlay : Location := [.ofText "flowgraph", .ofText "B", .ofText "site.conf"]

/-- The same working copy with the file and the overlay of the other node. -/
def moreFiles : List (Location × Option (List UInt8)) :=
  crossedFiles ++
    [([.ofText "flowgraph", .ofText "B"], none), (otherFile, some (Text.bytes "")),
      (otherOverlay, some (Text.bytes "data.node.platform=adl"))]

/-- What the working copy can be like. -/
def overlaidHistory : List (List (Location × Option (List UInt8))) :=
  [overlaidFiles "hdfs", overlaidFiles "adl", crossedFiles, moreFiles]

theorem locate_overlaid :
    ∀ files ∈ overlaidHistory,
      (site files).locate station.settings.repositoryDir = .ok siteLocation := by
  decide +kernel

theorem answered_overlaid :
    ∀ tree ∈ overlaidHistory.map site, stationMonitor.Answered tree := by
  have hok :
      ∀ tree ∈ overlaidHistory.map site,
        (Scan.ofTree tree stationMonitor.settings.repositoryDir).toOption.isSome := by
    decide +kernel
  intro tree htree
  obtain ⟨scan, hscan⟩ := Option.isSome_iff_exists.mp (hok tree htree)
  exact ⟨scan, toOption_eq_some_iff.mp hscan⟩

theorem workingCopy_overlaid :
    ∀ tree ∈ overlaidHistory.map site,
      tree.WorkingCopy station.settings.repositoryDir := by
  have hnames :
      ∀ files ∈ overlaidHistory, ∀ item ∈ files,
        Scan.hiddenName ∉ item.1 ∧ ∀ name ∈ item.1, name.Ordinary := by
    decide +kernel
  rw [List.forall_mem_map]
  intro files hfiles
  exact workingCopy_site (locate_overlaid files hfiles) (hnames files hfiles)

theorem documented_overlaid :
    ∀ tree ∈ overlaidHistory.map site, (stationMonitor.workshop tree).Documented tree := by
  have hdeclares :
      ∀ files ∈ overlaidHistory, ∀ item ∈ files,
        ((stationMonitor.workshop (site files)).entryOf? (.ofNames item.1)).isSome →
          ((stationMonitor.workshop (site files)).element?
            (station.settings.roleOf (.ofNames item.1)) (.ofNames item.1)).isSome := by
    decide +kernel
  have hdistinct :
      ∀ files ∈ overlaidHistory, ∀ item ∈ files, ∀ other ∈ files,
        ((stationMonitor.workshop (site files)).entryOf? (.ofNames item.1)).isSome →
        (stationMonitor.workshop (site files)).entryOf? (.ofNames item.1) =
          (stationMonitor.workshop (site files)).entryOf? (.ofNames other.1) →
        item.1 = other.1 := by
    decide +kernel
  rw [List.forall_mem_map]
  intro files hfiles
  exact documented_site (locate_overlaid files hfiles) (hdeclares files hfiles)
    (hdistinct files hfiles)

theorem documentedAt_overlaid
    {trees : List FileTree}
    (htrees : trees ⊆ overlaidHistory.map site) :
    stationMonitor.DocumentedAt trees := by
  have hroot : station.settings.repositoryDir.fileName? ≠ some Scan.hiddenName := by decide
  intro tree htree scan hscan
  exact (documented_overlaid tree (htrees htree)).documentedIn hroot
    (workingCopy_overlaid tree (htrees htree)) hscan

/-- Nothing is told of the files of the node and the edge when another node is added. -/
theorem paths_crossedFiles :
    ((stationMonitor.pollAll []).poll (site crossedFiles)).1.outcomes.map Prod.fst =
        [.ofNames nodeFile, .ofNames ferryFile,
          .ofNames [.ofText "flowgraph", .ofText "site.conf"]] ∧
      ((stationMonitor.pollAll [site crossedFiles]).poll
          (site moreFiles)).1.outcomes.map Prod.fst =
        [.ofNames otherFile, .ofNames otherOverlay] := by
  decide +kernel

theorem lastTold_crossedFiles :
    ∀ names ∈ [nodeFile, ferryFile],
      stationMonitor.LastTold (.ofNames names) ([site crossedFiles] ++ [site moreFiles])
        (site crossedFiles) := by
  obtain ⟨hfirst, hsecond⟩ := paths_crossedFiles
  have htold :
      ∀ names ∈ [nodeFile, ferryFile],
        (stationMonitor.pollAll []).Tells (.ofNames names) (site crossedFiles) := by
    simp only [Monitor.Tells, hfirst]
    decide
  have hsilent :
      ∀ names ∈ [nodeFile, ferryFile],
        ¬ (stationMonitor.pollAll [site crossedFiles]).Tells (.ofNames names)
          (site moreFiles) := by
    simp only [Monitor.Tells, hsecond]
    decide
  intro names hnames
  exact .silent (hsilent names hnames) (.told (htold names hnames))

/-- The overlay of the other node is on the way neither to the node nor to the edge. -/
theorem agreeAbove_crossedFiles :
    ∀ names ∈ [nodeFile, ferryFile],
      (site crossedFiles).AgreeAbove (site moreFiles) station.settings.repositoryDir names
        station.settings.overlayExtensions := by
  have hsame :
      ∀ names ∈ [nodeFile, ferryFile],
        ∀ files ∈ [crossedFiles, moreFiles], ∀ files' ∈ [crossedFiles, moreFiles],
          ∀ item ∈ files,
            (Path.ofNames item.1).hasExtension station.settings.overlayExtensions = true ∧
                item.1.dropLast <+: names →
              FileTree.entry? (site files') (siteLocation ++ item.1) =
                some (item.2.elim .directory .file) := by
    decide +kernel
  intro names hnames
  rintro near far - - rfl name content hextension
  have habove : (near ++ [name]).dropLast <+: near ++ far := by
    rw [List.dropLast_concat]
    exact List.prefix_append near far
  refine hasFile_site_iff (locate_overlaid _ (by simp [overlaidHistory]))
    (locate_overlaid _ (by simp [overlaidHistory]))
    (fun names => (Path.ofNames names).hasExtension _ = true ∧ names.dropLast <+: near ++ far)
    ?_ ?_ ⟨hextension, habove⟩
  · exact hsame _ hnames crossedFiles (by simp) moreFiles (by simp)
  · exact hsame _ hnames moreFiles (by simp) crossedFiles (by simp)

theorem pollAll_keeps_station :
    station.build = .ok (⟨stationMonitor, {}⟩, none) ∧
      stationMonitor.DocumentedAt ([site crossedFiles] ++ [site moreFiles]) ∧
      (∃ outcome,
        (.ofNames otherOverlay, outcome) ∈
          ((stationMonitor.pollAll [site crossedFiles]).poll (site moreFiles)).1.outcomes ∧
        (outcome = .skipped .overlayFile ∨ outcome = .ignored)) ∧
      ∀ names ∈ [nodeFile, ferryFile], ∃ entry element,
        (stationMonitor.workshop (site moreFiles)).entryOf? (.ofNames names) = some entry ∧
        (stationMonitor.pollAll ([site crossedFiles] ++ [site moreFiles])).graph.held entry =
          some element ∧
        (stationMonitor.workshop (site moreFiles)).Reflects (.ofNames names) element := by
  have hbuild : station.build = .ok (⟨stationMonitor, {}⟩, none) := rfl
  have hdocumented : stationMonitor.DocumentedAt ([site crossedFiles] ++ [site moreFiles]) :=
    documentedAt_overlaid (by simp [overlaidHistory])
  have hscanned :
      ∀ names ∈ [nodeFile, ferryFile],
        ((Scan.ofTree (site moreFiles) station.settings.repositoryDir).toOption.bind fun scan =>
          scan[names]?).isSome := by
    decide +kernel
  have hnamed :
      ∀ names ∈ [nodeFile, ferryFile],
        ((stationMonitor.workshop (site moreFiles)).entryOf? (.ofNames names)).isSome := by
    decide
  have htold :
      .ofNames otherOverlay ∈
        ((stationMonitor.pollAll [site crossedFiles]).poll
          (site moreFiles)).1.outcomes.map Prod.fst := by
    rw [paths_crossedFiles.2]
    decide
  obtain ⟨scan, hscan⟩ := answered_overlaid (site moreFiles) (by simp [overlaidHistory])
  obtain ⟨houtcomes, -, -, hfiles⟩ := pollAll_keeps hbuild rfl rfl rfl rfl hdocumented hscan
  refine ⟨hbuild, hdocumented, ?_, ?_⟩
  · obtain ⟨⟨_, outcome⟩, hmem, rfl⟩ := List.mem_map.mp htold
    exact ⟨outcome, hmem, houtcomes _ outcome hmem (by decide)⟩
  · intro names hnames
    obtain ⟨content, hcontent⟩ := Option.isSome_iff_exists.mp (hscanned names hnames)
    rw [show Scan.ofTree _ station.settings.repositoryDir = .ok scan from hscan] at hcontent
    obtain ⟨entry, hentry⟩ := Option.isSome_iff_exists.mp (hnamed names hnames)
    obtain ⟨read, element, hlast, hheld, -, -, hfresh⟩ :=
      hfiles names (Scan.mem_iff_exists.mpr ⟨content, hcontent⟩) entry hentry
    obtain rfl := hlast.unique (lastTold_crossedFiles names hnames)
    refine ⟨entry, element, hentry, hheld, hfresh ?_ ?_ (agreeAbove_crossedFiles names hnames)⟩
    · exact (workingCopy_overlaid _ (by simp [overlaidHistory])).regular
    · exact (workingCopy_overlaid _ (by simp [overlaidHistory])).regular

/-- After the overlay was edited, the node still has the platform that it told at first. -/
theorem not_reflects_nodeFile
    {element : Element}
    (hheld :
      (stationMonitor.pollAll
        ([site (overlaidFiles "hdfs")] ++ [site (overlaidFiles "adl")])).graph.held
          (.node "A") = some element) :
    ¬ (stationMonitor.workshop (site (overlaidFiles "adl"))).Reflects (.ofNames nodeFile)
      element := by
  have hstale :
      ((stationMonitor.pollAll
        ([site (overlaidFiles "hdfs")] ++ [site (overlaidFiles "adl")])).graph.held
          (.node "A")).map (fun element => element.properties[Key.nodePlatform]?) =
        some (some "hdfs") := by
    decide +kernel
  have hcurrent :
      ((stationMonitor.loader.load (site (overlaidFiles "adl"))
        (station.settings.repositoryDir.join (.ofNames nodeFile))).toOption.map fun properties =>
          ((station.settings.roleOf (.ofNames nodeFile)).stamp properties)[Key.nodePlatform]?) =
        some (some "adl") := by
    decide +kernel
  rintro ⟨properties, hloaded, hproperties⟩
  have hloaded' :
      (stationMonitor.loader.load (site (overlaidFiles "adl"))
        (station.settings.repositoryDir.join (.ofNames nodeFile))).toOption = some properties :=
    toOption_eq_some_iff.mpr hloaded
  rw [hheld, Option.map_some, Option.some.injEq, hproperties] at hstale
  rw [hloaded', Option.map_some, Option.some.injEq] at hcurrent
  exact absurd (hstale.symm.trans hcurrent) (by decide)

/-- When only an overlay was edited, the node below it stays as it was. -/
theorem not_reflects_overlays :
    ¬ ∀ (parts : CompilerParts) (compiler : Compiler) (exports : Option MetricRegistry)
        (catalog : Catalog) (mappings : List (String × String)) (history : List FileTree)
        (tree : FileTree) (names : Location) (content : List UInt8) (entry : Graph.Entry)
        (element : Element),
        parts.build = .ok (compiler, exports) →
        parts.source = none →
        parts.loader = none →
        (parts.catalog = some fun _ => catalog) →
        parts.registry = .ofMappings mappings →
        (∀ seen ∈ history ++ [tree], compiler.monitor.Answered seen) →
        (∀ seen ∈ history ++ [tree], seen.WorkingCopy parts.settings.repositoryDir) →
        (∀ seen ∈ history ++ [tree], (compiler.monitor.workshop seen).Documented seen) →
        tree.HasFile parts.settings.repositoryDir names content →
        (compiler.monitor.workshop tree).entryOf? (.ofNames names) = some entry →
        (compiler.monitor.pollAll (history ++ [tree])).graph.held entry = some element →
        (compiler.monitor.workshop tree).Reflects (.ofNames names) element := by
  intro hfresh
  have htrees :
      [site (overlaidFiles "hdfs")] ++ [site (overlaidFiles "adl")] ⊆
        overlaidHistory.map site := by
    simp [overlaidHistory]
  have hfile :
      (site (overlaidFiles "adl")).HasFile station.settings.repositoryDir nodeFile
        (Text.bytes "") :=
    ⟨siteLocation, locate_overlaid _ (by simp [overlaidHistory]), by decide +kernel⟩
  have hthere :
      ((stationMonitor.pollAll
        ([site (overlaidFiles "hdfs")] ++ [site (overlaidFiles "adl")])).graph.held
          (.node "A")).isSome := by
    decide +kernel
  obtain ⟨element, hheld⟩ := Option.isSome_iff_exists.mp hthere
  have hreflects :=
    hfresh station ⟨stationMonitor, {}⟩ none stationCatalog [("lake", "fs")]
      [site (overlaidFiles "hdfs")] (site (overlaidFiles "adl")) nodeFile (Text.bytes "")
      (.node "A") element rfl rfl rfl rfl rfl
      (fun tree htree => answered_overlaid tree (htrees htree))
      (fun tree htree => workingCopy_overlaid tree (htrees htree))
      (fun tree htree => documented_overlaid tree (htrees htree)) hfile (by decide) hheld
  exact not_reflects_nodeFile hheld hreflects

end Overlaid

end CompilerParts

end HopRouting
