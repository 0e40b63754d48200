import HopRouting.Proofs.Sync.Layouts
import HopRouting.Proofs.Sync.Mirror

/-!
# Files outside the flow graph

A role is read off the names of a path alone, and the file is opened where the path as a whole
leads.  The two agree where the path is made of nothing but its names: `LiesIn` says that it leads
into the directory of the flow graph, through the directories that its role tells, to a file in the
last of them.

**Results.**  A path with the role of a node or an edge lies there exactly if it only descends,
however it is spelled, and then no other file is opened for it (`opened_iff_descends`).  A path that
climbs can have such a role and lead anywhere (`not_liesIn`).
-/

namespace HopRouting

/-- The directories below that of the flow graph whose names a role tells. -/
def PathRole.directories? : PathRole → Option (List String)
  | node id => some [id]
  | edge source destination _ => some [source, destination]
  | skipped _ => none
  | ignored => none

namespace Settings

/-- Apart from a `.` in front, the path is made of the directory of the flow graph, of these
directories and of its file name; and behind the working copy, of all but the first below the root
of the flow graph. -/
def LiesIn (settings : Settings) (path : Path) (directories : List String) : Prop :=
  ∃ last, path.fileName? = some last ∧
    path.meaning =
      ((settings.graphDir :: directories).map Text.bytes ++ [last]).map Component.name ∧
    (settings.repositoryDir.join path).meaning =
      settings.graphRoot.meaning ++ (directories.map Text.bytes ++ [last]).map Component.name

variable {settings : Settings} {path : Path} {directories : List String}

theorem LiesIn.descends
    (hlies : settings.LiesIn path directories) :
    path.Descends := by
  obtain ⟨last, -, hmeaning, -⟩ := hlies
  exact Path.descends_of_meaning_eq hmeaning

/-- A path with the role of a node or an edge ends in the name of a file. -/
theorem exists_fileName?_of_directories?
    (hrole : (settings.roleOf path).directories? = some directories) :
    ∃ last, path.fileName? = some last := by
  have hstem :
      ∀ {top : String} {role : String → PathRole},
        (settings.roleUnless path top role).directories? = some directories →
          ∃ last, path.fileName? = some last := by
    intro top role hdirectories
    have hskipped : ∀ reason, settings.roleUnless path top role ≠ .skipped reason := by
      intro reason hcase
      simp [hcase, PathRole.directories?] at hdirectories
    have hignored : settings.roleUnless path top role ≠ .ignored := by
      intro hcase
      simp [hcase, PathRole.directories?] at hdirectories
    obtain ⟨-, stem, hstem, -⟩ := roleUnless_eq rfl hskipped hignored
    obtain ⟨name, hname, -⟩ := Option.bind_eq_some_iff.mp hstem
    obtain ⟨last, hlast, -⟩ := Option.map_eq_some_iff.mp hname
    exact ⟨last, hlast⟩
  unfold roleOf at hrole
  split at hrole
  · exact hstem hrole
  · exact hstem hrole
  · cases hrole

/-- The names of such a path are those of the directory of the flow graph, of the directories that
the role tells, and of the file. -/
theorem exists_names_of_directories?
    (hrole : (settings.roleOf path).directories? = some directories) :
    ∃ last, path.fileName? = some last ∧
      namesOf path = (settings.graphDir :: directories).map Text.bytes ++ [last] := by
  obtain ⟨last, hlast⟩ := exists_fileName?_of_directories? hrole
  have hends : (namesOf path).getLast? = some last := by
    obtain ⟨component, hcomponent, hname⟩ := Option.bind_eq_some_iff.mp hlast
    obtain ⟨front, hfront⟩ := List.getLast?_eq_some_iff.mp hcomponent
    rw [namesOf, hfront, List.filterMap_append, List.filterMap_cons_some hname,
      List.filterMap_nil, List.getLast?_concat]
  refine ⟨last, hlast, ?_⟩
  cases hcase : settings.roleOf path with
  | node id =>
      obtain ⟨top, own, name, hnames, hown, text, htext, hkept⟩ :=
        exists_names_of_roleOf_node hcase
      rw [hcase] at hrole
      cases hrole
      rw [hnames] at hends ⊢
      cases hends
      rw [← (skipReason?_eq_none_iff.mp hkept).2, List.map_cons, List.map_cons, List.map_nil,
        Name.bytes_of_text? htext, Name.bytes_of_text? hown]
      rfl
  | edge source destination stem =>
      obtain ⟨top, first, second, name, hnames, hfirst, hsecond, -, text, htext, hkept⟩ :=
        exists_names_of_roleOf_edge hcase
      rw [hcase] at hrole
      cases hrole
      rw [hnames] at hends ⊢
      cases hends
      rw [← (skipReason?_eq_none_iff.mp hkept).2, List.map_cons, List.map_cons, List.map_cons,
        List.map_nil, Name.bytes_of_text? htext, Name.bytes_of_text? hfirst,
        Name.bytes_of_text? hsecond]
      rfl
  | skipped reason =>
      rw [hcase] at hrole
      cases hrole
  | ignored =>
      rw [hcase] at hrole
      cases hrole

theorem meaning_graphRoot
    (hname : Name.Ordinary (Text.bytes settings.graphDir)) :
    settings.graphRoot.meaning =
      settings.repositoryDir.meaning ++ [.name (Text.bytes settings.graphDir)] := by
  rw [Path.meaning, components_graphRoot hname, List.filter_append]
  rfl

/-- A path with the role of a node or an edge lies in the directories that the role tells exactly if
it only descends. -/
theorem liesIn_iff_descends
    (hrole : (settings.roleOf path).directories? = some directories) :
    settings.LiesIn path directories ↔ path.Descends := by
  constructor
  · exact LiesIn.descends
  · intro hdescends
    obtain ⟨last, hlast, hnames⟩ := exists_names_of_directories? hrole
    have hmeaning :
        path.meaning =
          ((settings.graphDir :: directories).map Text.bytes ++ [last]).map Component.name := by
      rw [hdescends.meaning_eq, ← hnames]
      rfl
    have hgraphDir : Name.Ordinary (Text.bytes settings.graphDir) := by
      have hmem : Text.bytes settings.graphDir ∈ namesOf path := by
        rw [hnames]
        simp
      exact ordinary_of_mem_namesOf hmem
    refine ⟨last, hlast, hmeaning, ?_⟩
    rw [Path.meaning_join _ hdescends.isAbsolute, hmeaning, meaning_graphRoot hgraphDir]
    simp

/-- Where there are no links below the working copy, a file that lies in the directories is read
from there. -/
theorem LiesIn.entry?_of_read
    (hlies : settings.LiesIn path directories)
    {tree : FileTree} {location : Location} {content : List UInt8}
    (hbase : tree.locate (settings.repositoryDir.join (.ofText ".")) = .ok location)
    (hplain : tree.Plain location)
    (hread : tree.read (settings.repositoryDir.join path) = .ok content) :
    ∃ last, path.fileName? = some last ∧
      tree.entry? (location ++ (settings.graphDir :: directories).map Text.bytes ++ [last]) =
        some (.file content) := by
  have hdescends := hlies.descends
  obtain ⟨last, hlast, hmeaning, -⟩ := hlies
  have hpath : path.bytes ≠ [] := by
    intro hempty
    simp [Path.fileName?, Path.components, Path.segments, Path.firstComponent?, hempty] at hlast
  obtain ⟨final, hfinal, hcontent⟩ := bind_eq_ok_iff.mp hread
  have hplace := FileTree.locate_join_of_descends hbase hplain hpath hdescends hfinal
  have hnames :
      path.components.filterMap Component.name? =
        (settings.graphDir :: directories).map Text.bytes ++ [last] := by
    apply List.map_injective_iff.mpr (fun _ _ => Component.name.inj)
    rw [← hdescends.meaning_eq, hmeaning]
  refine ⟨last, hlast, ?_⟩
  rw [List.append_assoc, ← hnames, ← hplace]
  split at hcontent
  · next held hheld =>
    rw [hheld, Except.ok.inj hcontent]
  · cases hcontent

end Settings

namespace Workshop

section Opened

variable {workshop : Workshop} {path : Path}

/-- Only for a path with the role of a node or an edge is anything loaded, and that is the file that
the path leads to. -/
theorem addPath_of_load_eq
    {load : Path → Except PropertyFileError PropertySet}
    (hload :
      ∀ directories, (workshop.settings.roleOf path).directories? = some directories →
        workshop.load (workshop.settings.repositoryDir.join path) =
          load (workshop.settings.repositoryDir.join path))
    (graph : Graph) :
    addPath { workshop with load } graph path = workshop.addPath graph path := by
  unfold addPath element?
  cases hrole : workshop.settings.roleOf path with
  | node id =>
      rw [hrole] at hload
      simp only [hload _ rfl]
  | edge source destination name =>
      rw [hrole] at hload
      simp only [hload _ rfl]
  | skipped reason => rfl
  | ignored => rfl

theorem performAll_of_load_eq
    {load : Path → Except PropertyFileError PropertySet}
    {operations : List Operation}
    (hload :
      ∀ operation ∈ operations, ∀ directories,
        (workshop.settings.roleOf operation.path).directories? = some directories →
          workshop.load (workshop.settings.repositoryDir.join operation.path) =
            load (workshop.settings.repositoryDir.join operation.path))
    (graph : Graph) :
    performAll { workshop with load } graph operations =
      workshop.performAll graph operations := by
  induction operations generalizing graph with
  | nil => rfl
  | cons operation rest ih =>
      have hfirst :
          perform { workshop with load } graph operation = workshop.perform graph operation := by
        cases operation with
        | add path => exact addPath_of_load_eq (hload _ List.mem_cons_self) graph
        | remove path => rfl
      have hrest := ih fun other hother => hload other (List.mem_cons_of_mem _ hother)
      simp only [performAll, hfirst, hrest]

/-- A file of a node or an edge is opened below the directory of the flow graph, in the directories
that its path tells, exactly if the path only descends.  Where there are no links, reading it gives
the file that lies there; and a batch of such paths reads no other. -/
theorem opened_iff_descends
    (workshop : Workshop) :
    (∀ path directories,
      (workshop.settings.roleOf path).directories? = some directories →
        (workshop.settings.LiesIn path directories ↔ path.Descends)) ∧
    (∀ path directories (tree : FileTree) location content,
      workshop.settings.LiesIn path directories →
      tree.locate (workshop.settings.repositoryDir.join (.ofText ".")) = .ok location →
      tree.Plain location →
      tree.read (workshop.settings.repositoryDir.join path) = .ok content →
        ∃ last, path.fileName? = some last ∧
          tree.entry?
              (location ++ (workshop.settings.graphDir :: directories).map Text.bytes ++ [last]) =
            some (.file content)) ∧
    (∀ graph changes load,
      (∀ operation ∈ changes.flatMap Change.operations, ∀ directories,
        (workshop.settings.roleOf operation.path).directories? = some directories →
          operation.path.Descends) →
      (∀ path directories, workshop.settings.LiesIn path directories →
        workshop.load (workshop.settings.repositoryDir.join path) =
          load (workshop.settings.repositoryDir.join path)) →
        process { workshop with load } graph changes = workshop.process graph changes) := by
  refine ⟨fun path directories => Settings.liesIn_iff_descends, ?_, ?_⟩
  · intro path directories tree location content hlies hbase hplain hread
    exact hlies.entry?_of_read hbase hplain hread
  · intro graph changes load hdescends hload
    have hopened :
        ∀ operation ∈ changes.flatMap Change.operations, ∀ directories,
          (workshop.settings.roleOf operation.path).directories? = some directories →
            workshop.load (workshop.settings.repositoryDir.join operation.path) =
              load (workshop.settings.repositoryDir.join operation.path) := by
      intro operation hoperation directories hrole
      apply hload operation.path directories
      rw [Settings.liesIn_iff_descends hrole]
      exact hdescends operation hoperation directories hrole
    rw [process, process, performAll_of_load_eq hopened graph]

end Opened

end Workshop

namespace CompilerParts

/-- The file of the node in the working copy, with more in its path than names. -/
def siteFile : Path := .ofText "./flowgraph//A/A.properties"

/-- The properties that the station finds, but for a file outside the working copy. -/
def stationLoad (path : Path) : Except PropertyFileError PropertySet :=
  if path = .ofText "git-flowgraph/../flowgraph/A/A.properties" then .ok ∅
  else stationMonitor.loader.load siteBefore path

/-- Nothing that lies in the directory of the flow graph climbs on the way there. -/
theorem join_ne_of_liesIn
    {path : Path} {directories : List String}
    (hlies : station.settings.LiesIn path directories) :
    station.settings.repositoryDir.join path ≠
      .ofText "git-flowgraph/../flowgraph/A/A.properties" := by
  obtain ⟨last, -, -, hmeaning⟩ := hlies
  intro hsame
  have hup : Component.up ∈ (station.settings.repositoryDir.join path).meaning := by
    rw [hsame]
    decide
  have hroot : Component.up ∉ station.settings.graphRoot.meaning := by decide
  simp [hmeaning, hroot] at hup

theorem opened_iff_descends_station :
    siteFile.Descends ∧
      station.settings.roleOf siteFile = .node "A" ∧
      station.settings.LiesIn siteFile ["A"] ∧
      siteBefore.read (station.settings.repositoryDir.join siteFile) = .ok [] ∧
      (∃ last, siteFile.fileName? = some last ∧
        siteBefore.entry?
            (siteLocation ++ (station.settings.graphDir :: ["A"]).map Text.bytes ++ [last]) =
          some (.file [])) ∧
      (∀ graph,
        Workshop.process { stationMonitor.workshop siteBefore with load := stationLoad } graph
            [.added siteFile] =
          (stationMonitor.workshop siteBefore).process graph [.added siteFile]) := by
  obtain ⟨hlies, hread, hprocess⟩ :=
    Workshop.opened_iff_descends (stationMonitor.workshop siteBefore)
  have hdescends : siteFile.Descends := by decide
  have hrole : station.settings.roleOf siteFile = .node "A" := by decide
  have hdirectories : (station.settings.roleOf siteFile).directories? = some ["A"] := by
    rw [hrole]
    rfl
  have hinside : station.settings.LiesIn siteFile ["A"] :=
    (hlies siteFile ["A"] hdirectories).mpr hdescends
  have hlocate : siteBefore.locate station.settings.repositoryDir = .ok siteLocation := by
    decide +kernel
  have hbase :
      siteBefore.locate (station.settings.repositoryDir.join (.ofText ".")) =
        .ok siteLocation := by
    decide +kernel
  have hnames :
      ∀ item ∈ siteFiles "A.properties" "" "",
        Scan.hiddenName ∉ item.1 ∧ ∀ name ∈ item.1, name.Ordinary := by
    decide +kernel
  have hplain := (workingCopy_site hlocate hnames).plain siteLocation hlocate
  have hcontent : siteBefore.read (station.settings.repositoryDir.join siteFile) = .ok [] := by
    decide +kernel
  refine ⟨hdescends, hrole, hinside, hcontent, ?_, ?_⟩
  · exact hread siteFile ["A"] siteBefore siteLocation [] hinside hbase hplain hcontent
  · intro graph
    refine hprocess graph [.added siteFile] stationLoad ?_ ?_
    · intro operation hoperation directories _
      obtain rfl := List.mem_singleton.mp hoperation
      exact hdescends
    · intro path directories hlies
      exact (if_neg (join_ne_of_liesIn hlies)).symm

/-- A path that climbs out of the working copy first has the role of a node as well. -/
theorem not_liesIn :
    ¬ ∀ (settings : Settings) (path : Path) (directories : List String),
        settings.validate = .ok () →
        (settings.roleOf path).directories? = some directories →
        settings.LiesIn path directories := by
  intro hlies
  have hrole :
      station.settings.roleOf (.ofText "../flowgraph/A/A.properties") = .node "A" := by
    decide
  have hdirectories :
      (station.settings.roleOf (.ofText "../flowgraph/A/A.properties")).directories? =
        some ["A"] := by
    rw [hrole]
    rfl
  have hdescends := (hlies station.settings _ _ rfl hdirectories).descends
  exact absurd hdescends (by decide)

end CompilerParts

end HopRouting
