import Mathlib.Data.List.TakeDrop
import HopRouting.Proofs.Files.Descents
import HopRouting.Proofs.Sync.Roles
import HopRouting.Proofs.Text.Bytes

/-!
# The layout that settings see

The layout of a repository is documented by the names of files: `<graph>/<node>/<node>.<extension>`
declares a node, and `<graph>/<source>/<destination>/<name>.<extension>` an edge.  Settings are
checked before they are used, and the check looks at the characters of the name of the graph
directory, while the role of a path is read off its components.

**Names.**  `Name.ordinary_ofText_iff` tells by the characters of a text whether a directory can
hold an entry of that name.  What the check does not look for are the texts `.` and `..`, which are
no names.

**Result.**  `seesLayout_iff`: settings that pass the check see the documented layout, unless the
graph directory is called `.` or `..`; with such a name they see nothing.  So it is not enough that
settings pass the check (`not_seesLayout`).
-/

namespace HopRouting

namespace Name

/-- The characters of a text tell whether it can be the name of an entry. -/
theorem ordinary_ofText_iff
    {text : String} :
    (ofText text).Ordinary ↔ text ≠ "" ∧ text ≠ "." ∧ text ≠ ".." ∧ '/' ∉ text.toList := by
  have hempty : ofText text = [] ↔ text = "" := Text.bytes_inj text ""
  have hdot : ofText text = [dot] ↔ text = "." := Text.bytes_inj text "."
  have hup : ofText text = [dot, dot] ↔ text = ".." := Text.bytes_inj text ".."
  have hslash : slash ∈ ofText text ↔ '/' ∈ text.toList :=
    Text.byteOf_mem_bytes_iff '/' (by decide)
  rw [ne_eq, ne_eq, ne_eq, ← hempty, ← hdot, ← hup, ← hslash]
  constructor
  · rintro ⟨hnil, hhere, hparent, hsegment⟩
    exact ⟨hnil, hhere, hparent, hsegment⟩
  · rintro ⟨hnil, hhere, hparent, hsegment⟩
    exact ⟨hnil, hhere, hparent, hsegment⟩

section Extension

variable {stem extension : Name}

/-- A name falls apart at its last dot, unless it begins with this one. -/
theorem parts_append
    (hstem : stem ≠ [])
    (hdot : dot ∉ extension) :
    parts (stem ++ dot :: extension) = (stem, some extension) := by
  have hreverse :
      (stem ++ dot :: extension).reverse = extension.reverse ++ dot :: stem.reverse := by
    simp
  have hpast : ∀ byte ∈ extension.reverse, decide (byte ≠ dot) = true := by
    intro byte hbyte
    rw [decide_eq_true_eq]
    rintro rfl
    exact hdot (List.mem_reverse.mp hbyte)
  have hspan :
      (stem ++ dot :: extension).reverse.span (· ≠ dot) =
        (extension.reverse, dot :: stem.reverse) := by
    rw [hreverse, List.span_eq_takeWhile_dropWhile, List.takeWhile_append_of_pos hpast,
      List.dropWhile_append_of_pos hpast]
    simp
  unfold parts
  rw [hspan]
  split
  · next hnone => cases hnone
  · next hlone =>
    exact absurd (List.reverse_eq_nil_iff.mp (List.cons.inj (Prod.mk.inj hlone).2).2) hstem
  · next hboth =>
    obtain ⟨hextension, hrest⟩ := Prod.mk.inj hboth
    rw [← hextension, ← (List.cons.inj hrest).2, List.reverse_reverse, List.reverse_reverse]

theorem Ordinary.append
    (hstem : stem.Ordinary)
    (hslash : slash ∉ extension) :
    (stem ++ dot :: extension).Ordinary where
  ne_nil := by simp
  ne_dot := by
    simp [List.append_eq_singleton_iff, hstem.ne_nil]
  ne_up := by
    rw [ne_eq, List.append_eq_cons_iff]
    rintro (⟨hnil, -⟩ | ⟨rest, hrest, hlast⟩)
    · exact hstem.ne_nil hnil
    · have hlength := congrArg List.length hlast
      obtain rfl : rest = [] := by
        rw [← List.length_eq_zero_iff]
        simp only [List.length_append, List.length_cons, List.length_nil] at hlength
        omega
      exact hstem.ne_dot hrest
  no_slash := by
    have hdot : slash ≠ dot := by decide
    simp [hstem.no_slash, hdot, hslash]

end Extension

end Name

namespace Path

/-- The path is that of an entry of the directory. -/
def IsEntryOf (path directory : Path) : Prop :=
  ∃ name, path.components = directory.components ++ [.name name]

theorem not_isEntryOf_join
    {directory path : Path}
    (hrelative : path.isAbsolute = false)
    (hmeaning : ∀ name, path.meaning ≠ [.name name]) :
    ¬ (directory.join path).IsEntryOf directory := by
  rintro ⟨name, hcomponents⟩
  have hjoin := meaning_join directory hrelative
  rw [meaning, hcomponents, List.filter_append] at hjoin
  exact hmeaning name (List.append_cancel_left hjoin).symm

/-- Texts with slashes between them are the names of a path. -/
theorem ofText_intercalate
    (texts : List String) :
    ofText ("/".intercalate texts) = ofNames (texts.map Name.ofText) := by
  have hslash : Text.bytes "/" = [Name.slash] := rfl
  rw [ofText, ofNames, mk.injEq]
  induction texts with
  | nil =>
      rfl
  | cons text rest ih =>
      cases rest with
      | nil =>
          rw [String.intercalate_singleton, List.map_singleton, List.intercalate_singleton]
          rfl
      | cons next rest =>
          rw [String.intercalate_cons_cons, List.map_cons, List.map_cons,
            List.intercalate_cons_cons, Text.bytes_append, Text.bytes_append, hslash, ih,
            List.map_cons]
          rfl

end Path

namespace Settings

/-- The file with that stem and extension in the directories, one in the other, below the directory
of the flow graph. -/
def filePath (settings : Settings) (directories : List String) (stem extension : String) : Path :=
  .ofText ("/".intercalate (settings.graphDir :: directories ++ [stem ++ "." ++ extension]))

/-- The files of the documented layout are taken for what they are, whatever the names are, and the
flow graph lies in a directory of the working copy. -/
structure SeesLayout (settings : Settings) : Prop where
  node :
    ∀ extension ∈ settings.propertyExtensions,
      '.' ∉ extension.toList → '/' ∉ extension.toList →
        ∀ node : String, (Name.ofText node).Ordinary →
          settings.roleOf (settings.filePath [node] node extension) = .node node
  edge :
    ∀ extension ∈ settings.propertyExtensions,
      '.' ∉ extension.toList → '/' ∉ extension.toList →
        ∀ source destination name : String,
          (Name.ofText source).Ordinary → (Name.ofText destination).Ordinary →
            (Name.ofText name).Ordinary →
              settings.roleOf (settings.filePath [source, destination] name extension) =
                .edge source destination name
  graphRoot : settings.graphRoot.IsEntryOf settings.repositoryDir

variable {settings : Settings}

theorem validate_eq_ok_iff :
    settings.validate = .ok () ↔
      settings.namesRepository = true ∧ settings.pollingSeconds ≠ 0 ∧
        (settings.graphDir ≠ "" ∧ '/' ∉ settings.graphDir.toList) ∧
          settings.propertyExtensions ≠ [] := by
  unfold validate
  rw [← not_or]
  split_ifs with hrepository hseconds hgraphDir hextensions
  · simp_all
  · simp_all
  · simp_all
  · simp_all
  · simp_all

/-- The root of the flow graph is the working copy and one more name, where that is a name. -/
theorem components_graphRoot
    (hgraphDir : (Name.ofText settings.graphDir).Ordinary) :
    settings.graphRoot.components =
      settings.repositoryDir.components ++ [.name (Name.ofText settings.graphDir)] := by
  have hpath : Path.ofText settings.graphDir = .ofNames [Name.ofText settings.graphDir] :=
    (Path.ofNames_singleton _).symm
  rw [graphRoot, hpath, Path.components_join_name _ hgraphDir]

section FilePath

variable {directories : List String} {stem extension : String}
  (hdirectories : ∀ directory ∈ settings.graphDir :: directories, (Name.ofText directory).Ordinary)
  (hstem : (Name.ofText stem).Ordinary)
  (hslash : '/' ∉ extension.toList)

theorem ofText_withExtension
    (stem extension : String) :
    Name.ofText (stem ++ "." ++ extension) =
      Name.ofText stem ++ Name.dot :: Name.ofText extension := by
  have hdot : Text.bytes "." = [Name.dot] := rfl
  rw [Name.ofText, Text.bytes_append, Text.bytes_append, hdot, List.append_assoc,
    List.singleton_append]
  rfl

include hdirectories hstem hslash

theorem ordinaryNames_filePath :
    OrdinaryNames
      ((settings.graphDir :: directories ++ [stem ++ "." ++ extension]).map Name.ofText) := by
  refine ⟨by simp, ?_⟩
  intro name hname
  obtain ⟨text, htext, rfl⟩ := List.mem_map.mp hname
  rcases List.mem_append.mp htext with htext | htext
  · exact hdirectories text htext
  · have hbyte : Name.slash ∉ Name.ofText extension :=
      mt (Text.byteOf_mem_bytes_iff '/' (by decide)).mp hslash
    rw [List.mem_singleton.mp htext, ofText_withExtension]
    exact hstem.append hbyte

theorem mapM_text?_filePath :
    ((settings.filePath directories stem extension).components.filterMap
        Component.name?).mapM Name.text? =
      some (settings.graphDir :: directories ++ [stem ++ "." ++ extension]) := by
  have htexts :
      ∀ texts : List String, (texts.map Name.ofText).mapM Name.text? = some texts := by
    intro texts
    induction texts with
    | nil => rfl
    | cons text rest ih =>
        rw [List.map_cons, List.mapM_cons, ih]
        simp [Name.text?, Name.ofText]
  have hnames := namesOf_ofNames (ordinaryNames_filePath hdirectories hstem hslash)
  rw [filePath, Path.ofText_intercalate]
  rw [namesOf] at hnames
  rw [hnames, htexts]

theorem fileName?_filePath :
    (settings.filePath directories stem extension).fileName? =
      some (Name.ofText stem ++ Name.dot :: Name.ofText extension) := by
  rw [filePath, Path.ofText_intercalate,
    Path.fileName?_ofNames (ordinaryNames_filePath hdirectories hstem hslash), List.map_append,
    List.map_singleton, List.getLast?_concat, ofText_withExtension]

variable (hdot : '.' ∉ extension.toList)

include hdot

/-- The file of the layout is not skipped, and its stem is the one in its name. -/
theorem parts_filePath
    (hlisted : extension ∈ settings.propertyExtensions) :
    settings.skipReason? (settings.filePath directories stem extension) settings.graphDir = none ∧
      (settings.filePath directories stem extension).stem?.bind Name.text? = some stem := by
  have hbyte : Name.dot ∉ Name.ofText extension :=
    mt (Text.byteOf_mem_bytes_iff '.' (by decide)).mp hdot
  have hparts := Name.parts_append hstem.ne_nil hbyte
  have hname := fileName?_filePath hdirectories hstem hslash
  constructor
  · have hextension :
        (settings.filePath directories stem extension).extensionText? = some extension := by
      rw [Path.extensionText?, Path.extension?, hname, Option.bind_some, Name.extension?, hparts]
      exact Text.text?_bytes extension
    rw [skipReason?_eq_none_iff, hextension]
    exact ⟨hlisted, rfl⟩
  · rw [Path.stem?, hname, Option.map_some, Name.stem, hparts]
    exact Text.text?_bytes stem

end FilePath

section Roles

variable {extension : String}
  (hgraphDir : (Name.ofText settings.graphDir).Ordinary)
  (hlisted : extension ∈ settings.propertyExtensions)
  (hdot : '.' ∉ extension.toList)
  (hslash : '/' ∉ extension.toList)

include hgraphDir hlisted hdot hslash

theorem roleOf_filePath_node
    {node stem : String}
    (hnode : (Name.ofText node).Ordinary)
    (hstem : (Name.ofText stem).Ordinary) :
    settings.roleOf (settings.filePath [node] stem extension) = .node node := by
  have hdirectories :
      ∀ directory ∈ [settings.graphDir, node], (Name.ofText directory).Ordinary := by
    simp [hgraphDir, hnode]
  have hnames := mapM_text?_filePath hdirectories hstem hslash
  obtain ⟨hkept, hread⟩ := parts_filePath hdirectories hstem hslash hdot hlisted
  unfold roleOf
  rw [hnames]
  exact roleUnless_of_kept hkept hread _

theorem roleOf_filePath_edge
    {source destination stem : String}
    (hsource : (Name.ofText source).Ordinary)
    (hdestination : (Name.ofText destination).Ordinary)
    (hstem : (Name.ofText stem).Ordinary) :
    settings.roleOf (settings.filePath [source, destination] stem extension) =
      .edge source destination stem := by
  have hdirectories :
      ∀ directory ∈ [settings.graphDir, source, destination],
        (Name.ofText directory).Ordinary := by
    simp [hgraphDir, hsource, hdestination]
  have hnames := mapM_text?_filePath hdirectories hstem hslash
  obtain ⟨hkept, hread⟩ := parts_filePath hdirectories hstem hslash hdot hlisted
  unfold roleOf
  rw [hnames]
  exact roleUnless_of_kept hkept hread _

end Roles

section Unnamed

/-- A file is only found below a directory that has a name. -/
theorem ordinary_graphDir
    {path : Path} {entry : Graph.Entry}
    (hentry : PathRole.entry? (settings.roleOf path) = some entry) :
    (Name.ofText settings.graphDir).Ordinary := by
  obtain ⟨back, last, hnames⟩ := exists_names_of_entry? hentry
  have hmem : Text.bytes settings.graphDir ∈ namesOf path := by simp [hnames]
  exact ordinary_of_mem_namesOf hmem

theorem SeesLayout.graphDir_ne
    (hsees : settings.SeesLayout) :
    settings.graphDir ≠ "." ∧ settings.graphDir ≠ ".." := by
  have hroot := hsees.graphRoot
  rw [Settings.graphRoot] at hroot
  constructor
  · intro hgraphDir
    have hmeaning : (Path.ofText ".").meaning = [] := by decide
    rw [hgraphDir] at hroot
    exact Path.not_isEntryOf_join (by decide) (by simp [hmeaning]) hroot
  · intro hgraphDir
    have hmeaning : (Path.ofText "..").meaning = [.up] := by decide
    rw [hgraphDir] at hroot
    exact Path.not_isEntryOf_join (by decide) (by simp [hmeaning]) hroot

theorem seesLayout_of_ordinary
    (hgraphDir : (Name.ofText settings.graphDir).Ordinary) :
    settings.SeesLayout where
  node := by
    intro extension hlisted hdot hslash node hnode
    exact roleOf_filePath_node hgraphDir hlisted hdot hslash hnode hnode
  edge := by
    intro extension hlisted hdot hslash source destination name hsource hdestination hname
    exact roleOf_filePath_edge hgraphDir hlisted hdot hslash hsource hdestination hname
  graphRoot := ⟨_, components_graphRoot hgraphDir⟩

/-- Settings that pass the check see the documented layout, unless they call the graph directory `.`
or `..`, in which case no path has the role of a node or an edge. -/
theorem seesLayout_iff
    (hvalid : settings.validate = .ok ()) :
    (settings.SeesLayout ↔ settings.graphDir ≠ "." ∧ settings.graphDir ≠ "..") ∧
      (settings.graphDir = "." ∨ settings.graphDir = ".." →
        ∀ path, PathRole.entry? (settings.roleOf path) = none) := by
  obtain ⟨-, -, ⟨hempty, hslash⟩, -⟩ := validate_eq_ok_iff.mp hvalid
  refine ⟨⟨SeesLayout.graphDir_ne, ?_⟩, ?_⟩
  · rintro ⟨hdot, hup⟩
    exact seesLayout_of_ordinary (Name.ordinary_ofText_iff.mpr ⟨hempty, hdot, hup, hslash⟩)
  · intro hdots path
    by_contra hentry
    obtain ⟨entry, hsome⟩ := Option.ne_none_iff_exists'.mp hentry
    obtain ⟨-, hdot, hup, -⟩ := Name.ordinary_ofText_iff.mp (ordinary_graphDir hsome)
    exact hdots.elim hdot hup

/-- The default directory of the flow graph is seen, and the working copy itself is not. -/
theorem seesLayout_iff_default :
    Settings.SeesLayout { repositoryUri := some "file:///topology.git" } ∧
      ∀ path,
        PathRole.entry?
          (Settings.roleOf { repositoryUri := some "file:///topology.git", graphDir := "." } path) =
            none := by
  constructor
  · exact (seesLayout_iff rfl).1.mpr (by decide)
  · exact (seesLayout_iff rfl).2 (by decide)

/-- It is not enough that settings pass the check: the graph directory may be called `.`. -/
theorem not_seesLayout :
    ¬ ∀ settings : Settings, settings.validate = .ok () → settings.SeesLayout := by
  intro hsees
  have hnode :=
    (hsees { repositoryUri := some "file:///topology.git", graphDir := "." } rfl).node
      "properties" (by decide) (by decide) (by decide) "A" (by decide)
  exact absurd hnode (by decide)

end Unnamed

end Settings

end HopRouting
