import Mathlib.Data.List.Infix
import HopRouting.Proofs.Files.Approaches
import HopRouting.Proofs.PropertySet.Layers
import HopRouting.Proofs.Sync.Overlays

/-!
# The nearest overlay

A file is read together with the overlays of its directories, one merge after the other.  What comes
out is told without the merges: a key has the value that the file gives it, else the value that the
nearest directory with an overlay file for the key gives it, by the last of these files in the order
of their names.

**Directories.**  `ways` tells which directories count, by what their paths mean, and
`map_components_searched` that these are the ones the loader searches.  A file that can be read lies
behind directories that can be entered, so looking for overlays in one of them can only fail because
its path is too long (`exists_enters_of_mem_consulted`).

**Result.**  `load_nearest`: when a file can be loaded, what value each key then has, and what this
depends on.  It is about the directories that are spelled by a path that is not empty.  The empty
path stands for the working directory, but it is not looked up, so the overlays of this directory
are missed (`not_load_nearest`).
-/

namespace HopRouting

namespace OverlayLoader

section Directories

/-- The directories whose overlays count for the file at a path, told by their components, the
farthest first: those on the way from the root directory down to the directory of the file, or only
the latter if it does not lie below the root directory. -/
def ways (loader : OverlayLoader) (path : Path) : List (List Component) :=
  if path.hasExtension loader.propertyExtensions then
    if loader.root.components <+: path.components.dropLast then
      path.components.dropLast.inits.filter (loader.root.components <+: ·)
    else [path.components.dropLast]
  else []

/-- The directories that are searched for overlays of the file at a path, the farthest first. -/
def searched (loader : OverlayLoader) (path : Path) : List Path :=
  if path.hasExtension loader.propertyExtensions then
    path.parent?.toList.flatMap loader.directories
  else []

/-- The directories that are searched, but for the empty path, which is not looked up. -/
def consulted (loader : OverlayLoader) (path : Path) : List Path :=
  (loader.searched path).filter (·.bytes ≠ [])

theorem map_components_descend
    {base path : Path} {back : List Component}
    (hbelow : path.components = base.components ++ back) :
    (descend base back).map Path.components = back.inits.map (base.components ++ ·) := by
  induction back generalizing base with
  | nil =>
      simp [descend]
  | cons component rest ih =>
      have hnext := Path.components_join_component hbelow
      have hdeeper :
          path.components = (base.join ⟨component.bytes⟩).components ++ rest := by
        rw [hnext, hbelow, List.append_assoc, List.singleton_append]
      rw [descend, List.map_cons, ih hdeeper, hnext, List.inits_cons, List.map_cons,
        List.append_nil, List.map_map]
      simp

theorem filter_inits
    (front back : List Component) :
    (front ++ back).inits.filter (front <+: ·) = back.inits.map (front ++ ·) := by
  induction front with
  | nil =>
      simp
  | cons component rest ih =>
      have hcons :
          (fun init : List Component => decide (component :: rest <+: init)) ∘ (component :: ·) =
            fun init => decide (rest <+: init) := by
        funext init
        simp
      rw [List.cons_append, List.inits_cons, List.filter_cons_of_neg (by simp), List.filter_map,
        hcons, ih, List.map_map]
      rfl

theorem map_components_directories
    (loader : OverlayLoader)
    (directory : Path) :
    (loader.directories directory).map Path.components =
      if loader.root.components <+: directory.components then
        directory.components.inits.filter (loader.root.components <+: ·)
      else [directory.components] := by
  unfold directories
  cases hbelow : directory.below? loader.root with
  | none =>
      have houtside : ¬ loader.root.components <+: directory.components := by
        rintro ⟨back, hback⟩
        rw [Path.below?, List.isPrefixOf?_eq_some_iff_append_eq.mpr hback] at hbelow
        cases hbelow
      rw [if_neg houtside]
      rfl
  | some back =>
      have hback := List.isPrefixOf?_eq_some_iff_append_eq.mp hbelow
      rw [if_pos ⟨back, hback⟩, ← hback, filter_inits]
      exact map_components_descend hback.symm

/-- A path with one of the extensions has a file name, and so it has a parent. -/
theorem exists_parent_of_hasExtension
    {path : Path} {extensions : List String}
    (hextension : path.hasExtension extensions = true) :
    ∃ directory name,
      path.parent? = some directory ∧
      path.components = directory.components ++ [.name name] := by
  have hnamed : path.fileName? ≠ none := by
    intro hnone
    simp [Path.hasExtension, Path.extensionText?, Path.extension?, hnone] at hextension
  obtain ⟨name, hname⟩ := Option.ne_none_iff_exists'.mp hnamed
  obtain ⟨directory, hparent⟩ := Path.exists_parent_of_fileName? hname
  exact ⟨directory, name, hparent⟩

/-- The directories that are searched are those that count. -/
theorem map_components_searched
    (loader : OverlayLoader)
    (path : Path) :
    (loader.searched path).map Path.components = loader.ways path := by
  unfold searched ways
  by_cases hextension : path.hasExtension loader.propertyExtensions = true
  · obtain ⟨directory, name, hparent, hcomponents⟩ := exists_parent_of_hasExtension hextension
    rw [if_pos hextension, if_pos hextension, hparent, Option.toList_some,
      List.flatMap_singleton, map_components_directories, hcomponents, List.dropLast_concat]
  · rw [if_neg hextension, if_neg hextension, List.map_nil]

/-- Of the directories that count, only the one that the empty path means is not consulted. -/
theorem map_components_consulted
    (loader : OverlayLoader)
    (path : Path) :
    (loader.consulted path).map Path.components = (loader.ways path).filter (· ≠ []) := by
  rw [← map_components_searched, List.filter_map, consulted]
  congr 1
  apply List.filter_congr
  intro directory _
  simp [Path.components_eq_nil_iff]

/-- The directories that are searched lie on the way to the file. -/
theorem exists_behind_of_mem_searched
    {loader : OverlayLoader} {path directory : Path}
    (hmem : directory ∈ loader.searched path) :
    ∃ back, back ≠ [] ∧ path.components = directory.components ++ back := by
  have hway : directory.components ∈ loader.ways path := by
    rw [← map_components_searched]
    exact List.mem_map_of_mem hmem
  unfold ways at hway
  split at hway
  · next hextension =>
    obtain ⟨parent, name, -, hcomponents⟩ := exists_parent_of_hasExtension hextension
    rw [hcomponents, List.dropLast_concat] at hway
    have hprefix : directory.components <+: parent.components := by
      split at hway
      · exact (List.mem_inits _ _).mp (List.mem_filter.mp hway).1
      · exact List.mem_singleton.mp hway ▸ List.prefix_rfl
    obtain ⟨between, hbetween⟩ := hprefix
    refine ⟨between ++ [.name name], by simp, ?_⟩
    rw [hcomponents, ← hbetween, List.append_assoc]
  · cases hway

end Directories

/-- The directory that a path means holds an overlay file of that name and content.  The empty path
means the working directory. -/
structure HasOverlay (loader : OverlayLoader) (tree : FileTree) (directory : Path) (name : Name)
    (content : List UInt8) : Prop where
  listed : ∃ location, tree.Enters directory location ∧ name ∈ tree.namesIn location
  overlay : (directory.child name).hasExtension loader.overlayExtensions = true
  content : tree.read (directory.child name) = .ok content

/-- The overlay file of that name in the directory gives the key this value. -/
def Gives (loader : OverlayLoader) (tree : FileTree) (directory : Path) (name : Name)
    (key value : String) : Prop :=
  ∃ content properties, loader.HasOverlay tree directory name content ∧
    PropertySet.ofFile tree (directory.child name) = .ok properties ∧
    properties[key]? = some value

/-- Of the overlay files of the directory that set the key, the last by name gives it this
value. -/
def GivesLast (loader : OverlayLoader) (tree : FileTree) (key : String) (directory : Path)
    (value : String) : Prop :=
  ∃ name, loader.Gives tree directory name key value ∧
    ∀ later, compare name later = .lt → ∀ other, ¬ loader.Gives tree directory later key other

theorem overlaysOf_eq_ok_iff
    {loader : OverlayLoader} {tree : FileTree} {directories : List Path}
    {sets : List PropertySet} :
    loader.overlaysOf tree directories = .ok sets ↔
      ∃ blocks,
        List.Forall₂ (fun directory block => loader.setsIn tree directory = .ok block)
          directories blocks ∧
        sets = blocks.flatten := by
  rw [overlaysOf_eq, bind_eq_ok_iff]
  simp only [mapM_eq_ok_iff]
  refine exists_congr fun blocks => and_congr_right fun _ => ?_
  exact ⟨fun hsets => (Except.ok.inj hsets).symm, fun hsets => congrArg Except.ok hsets.symm⟩

/-- The file itself is merged behind the overlays of the directories that are searched. -/
theorem load_eq
    (loader : OverlayLoader)
    (tree : FileTree)
    (path : Path) :
    loader.load tree path =
      (do
        let own ← PropertySet.ofFile tree path
        let overlays ← loader.overlaysOf tree (loader.searched path)
        pure ((PropertySet.layered overlays).merge own)) := by
  unfold load searched
  by_cases hextension : path.hasExtension loader.propertyExtensions = true
  · simp only [hextension, if_true, Bool.not_true, Bool.false_eq_true, if_false]
    rfl
  · rw [if_neg hextension]
    simp only [hextension, Bool.not_false, if_true]
    cases PropertySet.ofFile tree path with
    | error cause => rfl
    | ok own => exact congrArg Except.ok (PropertySet.empty_merge own).symm

section Directory

variable {loader : OverlayLoader} {tree : FileTree} {directory : Path}

theorem setsIn_of_bytes_eq_nil
    (hempty : directory.bytes = []) :
    loader.setsIn tree directory = .ok [] := by
  simp only [setsIn, overlaysIn, tree.list_of_bytes_eq_nil hempty]
  rfl

variable {location : Location} (henters : tree.Enters directory location)

include henters

theorem mem_overlayNames_iff_hasOverlay
    {name : Name} :
    name ∈ loader.overlayNames tree location directory ↔
      ∃ content, loader.HasOverlay tree directory name content := by
  rw [overlayNames, List.mem_filter, Bool.and_eq_true, FileTree.isFile_iff]
  constructor
  · rintro ⟨hlisted, ⟨content, hread⟩, hextension⟩
    exact ⟨content, ⟨location, henters, hlisted⟩, hextension, hread⟩
  · rintro ⟨content, ⟨found, hfound, hlisted⟩, hextension, hread⟩
    obtain rfl : found = location := Except.ok.inj (hfound.reached.symm.trans henters.reached)
    exact ⟨hlisted, ⟨content, hread⟩, hextension⟩

/-- The last overlay file by name that sets the key is the last one in the order of names. -/
theorem givesLast_iff_prevails
    {key value : String} :
    loader.GivesLast tree key directory value ↔
      Prevails (fun name value => loader.Gives tree directory name key value) value
        (loader.overlayNames tree location directory) := by
  have hmem : ∀ {name value}, loader.Gives tree directory name key value →
      name ∈ loader.overlayNames tree location directory := by
    rintro name value ⟨content, properties, hoverlay, -⟩
    exact (mem_overlayNames_iff_hasOverlay henters).mpr ⟨content, hoverlay⟩
  rw [prevails_iff_of_pairwise Name.lt_asymm (sorted_overlayNames loader tree location directory)]
  constructor
  · rintro ⟨name, hgives, hlast⟩
    exact ⟨name, hmem hgives, hgives, fun later _ => hlast later⟩
  · rintro ⟨name, -, hgives, hlast⟩
    exact ⟨name, hgives, fun later hlt other hother => hlast later (hmem hother) hlt other hother⟩

end Directory

/-- If an overlay file of a directory sets a key, the last of them gives a value. -/
theorem exists_givesLast_iff
    {loader : OverlayLoader} {tree : FileTree} {key : String} {directory : Path} :
    (∃ value, loader.GivesLast tree key directory value) ↔
      ∃ name value, loader.Gives tree directory name key value := by
  constructor
  · rintro ⟨value, name, hgives, -⟩
    exact ⟨name, value, hgives⟩
  · rintro ⟨name, value, hgives⟩
    obtain ⟨content, properties, hoverlay, -⟩ := id hgives
    obtain ⟨location, henters, -⟩ := hoverlay.listed
    have hmem := (mem_overlayNames_iff_hasOverlay henters).mpr ⟨content, hoverlay⟩
    have hsome : ∃ name ∈ loader.overlayNames tree location directory, ∃ value,
        loader.Gives tree directory name key value := ⟨name, hmem, value, hgives⟩
    obtain ⟨last, hlast⟩ := exists_prevails_iff.mpr hsome
    exact ⟨last, (givesLast_iff_prevails henters).mpr hlast⟩

/-- What can be read as a property file can be looked up. -/
theorem exists_locate_of_ofFile
    {tree : FileTree} {path : Path} {own : PropertySet}
    (hown : PropertySet.ofFile tree path = .ok own) :
    ∃ final, tree.locate path = .ok final := by
  cases hlocate : tree.locate path with
  | ok final => exact ⟨final, rfl⟩
  | error cause =>
      simp [PropertySet.ofFile, FileTree.readText, FileTree.read, hlocate, bind, Except.bind,
        Except.mapError] at hown

section Consulted

variable {loader : OverlayLoader} {tree : FileTree} {path directory : Path} {own : PropertySet}
variable (hown : PropertySet.ofFile tree path = .ok own)
variable (hmem : directory ∈ loader.consulted path)

include hown hmem

/-- The directories on the way to a readable file can be entered, so that their overlay files are
found unless their path is too long. -/
theorem exists_enters_of_mem_consulted :
    ∃ location,
      tree.Enters directory location ∧
      loader.setsIn tree directory =
        if directory.bytes.length ≤ Path.lengthLimit then
          (loader.overlayNames tree location directory).mapM fun name =>
            PropertySet.ofFile tree (directory.child name)
        else .error (.unreadable directory .nameTooLong) := by
  obtain ⟨hsearched, hkept⟩ := List.mem_filter.mp hmem
  have hspelled : directory.bytes ≠ [] := of_decide_eq_true hkept
  obtain ⟨back, hback, happroached⟩ := exists_behind_of_mem_searched hsearched
  obtain ⟨final, hlocate⟩ := exists_locate_of_ofFile hown
  obtain ⟨location, henters⟩ :=
    FileTree.exists_enters_of_approached hlocate happroached hspelled hback
  refine ⟨location, henters, ?_⟩
  have hlist := FileTree.list_of_enters hlocate happroached hspelled henters
  by_cases hshort : directory.bytes.length ≤ Path.lengthLimit
  · rw [if_pos hshort] at hlist ⊢
    exact loader.setsIn_of_list hlist
  · rw [if_neg hshort] at hlist ⊢
    simp only [setsIn, overlaysIn, hlist]
    rfl

/-- A directory is searched with success if each of its overlay files is a property file. -/
theorem exists_setsIn_eq_ok_iff :
    (∃ block, loader.setsIn tree directory = .ok block) ↔
      directory.bytes.length ≤ Path.lengthLimit ∧
      ∀ name content, loader.HasOverlay tree directory name content →
        ∃ set, PropertySet.ofFile tree (directory.child name) = .ok set := by
  obtain ⟨location, henters, hsets⟩ := exists_enters_of_mem_consulted hown hmem
  rw [hsets]
  by_cases hshort : directory.bytes.length ≤ Path.lengthLimit
  · rw [if_pos hshort, exists_mapM_eq_ok_iff, and_iff_right hshort]
    simp only [mem_overlayNames_iff_hasOverlay henters, forall_exists_index]
  · rw [if_neg hshort]
    simp only [hshort, false_and, iff_false, not_exists]
    rintro block ⟨⟩

/-- The sets that are found in a directory give a key the value of the last overlay file. -/
theorem givesLast_iff_layered
    {block : List PropertySet}
    (hblock : loader.setsIn tree directory = .ok block)
    (key value : String) :
    loader.GivesLast tree key directory value ↔
      (PropertySet.layered block)[key]? = some value := by
  obtain ⟨location, henters, hsets⟩ := exists_enters_of_mem_consulted hown hmem
  rw [hsets] at hblock
  split at hblock
  · have hread := mapM_eq_ok_iff.mp hblock
    have hboth := (List.forall₂_and_left _ _).mpr
      ⟨fun name => (mem_overlayNames_iff_hasOverlay henters).mp, hread⟩
    have hgives :
        List.Forall₂
          (fun name set => ∀ value,
            loader.Gives tree directory name key value ↔ set[key]? = some value)
          (loader.overlayNames tree location directory) block := by
      refine hboth.imp ?_
      rintro name set ⟨⟨content, hoverlay⟩, hset⟩ value
      constructor
      · rintro ⟨_, properties, -, hproperties, hvalue⟩
        obtain rfl : properties = set := Except.ok.inj (hproperties.symm.trans hset)
        exact hvalue
      · intro hvalue
        exact ⟨content, set, hoverlay, hset, hvalue⟩
    rw [PropertySet.getElem?_layered_iff hgives, givesLast_iff_prevails henters]
  · cases hblock

end Consulted

/-- Two trees find the same sets in a directory if they agree on its overlay files. -/
theorem setsIn_congr
    {loader : OverlayLoader} {tree tree' : FileTree} {path directory : Path}
    {own own' : PropertySet}
    (hown : PropertySet.ofFile tree path = .ok own)
    (hown' : PropertySet.ofFile tree' path = .ok own')
    (hmem : directory ∈ loader.consulted path)
    (hagree : ∀ name content,
      loader.HasOverlay tree directory name content ↔
        loader.HasOverlay tree' directory name content) :
    loader.setsIn tree directory = loader.setsIn tree' directory := by
  obtain ⟨location, henters, hsets⟩ := exists_enters_of_mem_consulted hown hmem
  obtain ⟨location', henters', hsets'⟩ := exists_enters_of_mem_consulted hown' hmem
  have hnames :
      loader.overlayNames tree location directory =
        loader.overlayNames tree' location' directory := by
    apply overlayNames_eq_of_mem_iff
    intro name
    rw [mem_overlayNames_iff_hasOverlay henters, mem_overlayNames_iff_hasOverlay henters']
    exact exists_congr fun content => hagree name content
  rw [hsets, hsets', hnames]
  refine if_congr Iff.rfl (mapM_congr ?_) rfl
  intro name hname
  obtain ⟨content, hoverlay'⟩ := (mem_overlayNames_iff_hasOverlay henters').mp hname
  have hoverlay := (hagree name content).mpr hoverlay'
  exact PropertySet.ofFile_congr (hoverlay.content.trans hoverlay'.content.symm)

/-- The nearest of the directories with an overlay file that sets the key gives it this value. -/
def Nearest (loader : OverlayLoader) (tree : FileTree) (key : String) (directories : List Path)
    (value : String) : Prop :=
  ∃ farther directory nearer,
    directories = farther ++ directory :: nearer ∧
    loader.GivesLast tree key directory value ∧
    ∀ other ∈ nearer, ∀ name overlaid, ¬ loader.Gives tree other name key overlaid

theorem nearest_iff_prevails
    {loader : OverlayLoader} {tree : FileTree} {key value : String} {directories : List Path} :
    loader.Nearest tree key directories value ↔
      Prevails (loader.GivesLast tree key) value directories := by
  have hsilent : ∀ directory,
      (∀ name overlaid, ¬ loader.Gives tree directory name key overlaid) ↔
        ∀ overlaid, ¬ loader.GivesLast tree key directory overlaid := by
    intro directory
    rw [← not_exists, exists_givesLast_iff]
    simp only [not_exists]
  rw [prevails_iff_append]
  simp only [Nearest, hsilent]

section Searched

variable {loader : OverlayLoader} {tree : FileTree} {path : Path} {own : PropertySet}
variable (hown : PropertySet.ofFile tree path = .ok own)

include hown

theorem exists_overlaysOf_eq_ok_iff :
    (∃ overlays, loader.overlaysOf tree (loader.searched path) = .ok overlays) ↔
      ∀ directory ∈ loader.consulted path,
        directory.bytes.length ≤ Path.lengthLimit ∧
        ∀ name content, loader.HasOverlay tree directory name content →
          ∃ set, PropertySet.ofFile tree (directory.child name) = .ok set := by
  have hblocks :
      (∃ overlays, loader.overlaysOf tree (loader.searched path) = .ok overlays) ↔
        ∀ directory ∈ loader.searched path, ∃ block, loader.setsIn tree directory = .ok block := by
    rw [← exists_mapM_eq_ok_iff]
    simp only [overlaysOf_eq_ok_iff, mapM_eq_ok_iff]
    constructor
    · rintro ⟨overlays, blocks, hblocks, -⟩
      exact ⟨blocks, hblocks⟩
    · rintro ⟨blocks, hblocks⟩
      exact ⟨_, blocks, hblocks, rfl⟩
  rw [hblocks]
  constructor
  · intro hall directory hmem
    exact (exists_setsIn_eq_ok_iff hown hmem).mp (hall directory (List.mem_filter.mp hmem).1)
  · intro hall directory hmem
    by_cases hempty : directory.bytes = []
    · exact ⟨[], setsIn_of_bytes_eq_nil hempty⟩
    · have hconsulted : directory ∈ loader.consulted path :=
        List.mem_filter.mpr ⟨hmem, decide_eq_true hempty⟩
      exact (exists_setsIn_eq_ok_iff hown hconsulted).mpr (hall directory hconsulted)

/-- Merging the overlays one after the other comes to the nearest directory for each key. -/
theorem layered_overlays_iff
    {overlays : List PropertySet}
    (hoverlays : loader.overlaysOf tree (loader.searched path) = .ok overlays)
    (key value : String) :
    (PropertySet.layered overlays)[key]? = some value ↔
      loader.Nearest tree key (loader.consulted path) value := by
  obtain ⟨blocks, hblocks, rfl⟩ := overlaysOf_eq_ok_iff.mp hoverlays
  have hgives :
      List.Forall₂
        (fun directory set => ∀ value,
          decide (directory.bytes ≠ []) = true ∧ loader.GivesLast tree key directory value ↔
            set[key]? = some value)
        (loader.searched path) (blocks.map PropertySet.layered) := by
    rw [List.forall₂_map_right_iff]
    have hboth := (List.forall₂_and_left _ _).mpr
      ⟨fun directory (hmem : directory ∈ loader.searched path) => hmem, hblocks⟩
    refine hboth.imp ?_
    rintro directory block ⟨hmem, hblock⟩ value
    by_cases hempty : directory.bytes = []
    · rw [setsIn_of_bytes_eq_nil hempty] at hblock
      cases hblock
      simp [hempty, PropertySet.layered]
    · have hkept : decide (directory.bytes ≠ []) = true := decide_eq_true hempty
      rw [and_iff_right hkept]
      exact givesLast_iff_layered hown (List.mem_filter.mpr ⟨hmem, hkept⟩) hblock key value
  rw [PropertySet.getElem?_layered_flatten, PropertySet.getElem?_layered_iff hgives,
    nearest_iff_prevails, consulted, prevails_filter_iff]

end Searched

/-- A file is loaded if it and all overlay files of its directories are property files. -/
theorem exists_load_eq_ok_iff
    {loader : OverlayLoader} {tree : FileTree} {path : Path} :
    (∃ set, loader.load tree path = .ok set) ↔
      (∃ own, PropertySet.ofFile tree path = .ok own) ∧
      ∀ directory ∈ loader.consulted path,
        directory.bytes.length ≤ Path.lengthLimit ∧
        ∀ name content, loader.HasOverlay tree directory name content →
          ∃ set, PropertySet.ofFile tree (directory.child name) = .ok set := by
  simp only [load_eq, bind_eq_ok_iff]
  constructor
  · rintro ⟨set, own, hown, overlays, hoverlays, -⟩
    exact ⟨⟨own, hown⟩, (exists_overlaysOf_eq_ok_iff hown).mp ⟨overlays, hoverlays⟩⟩
  · rintro ⟨⟨own, hown⟩, hall⟩
    obtain ⟨overlays, hoverlays⟩ := (exists_overlaysOf_eq_ok_iff hown).mpr hall
    exact ⟨_, own, hown, overlays, hoverlays, rfl⟩

/-- Each key has the value of the file, else that of the nearest overlay. -/
theorem getElem?_load_iff
    {loader : OverlayLoader} {tree : FileTree} {path : Path} {set own : PropertySet}
    (hload : loader.load tree path = .ok set)
    (hown : PropertySet.ofFile tree path = .ok own)
    (key value : String) :
    set[key]? = some value ↔
      own[key]? = some value ∨
        own[key]? = none ∧ loader.Nearest tree key (loader.consulted path) value := by
  simp only [load_eq, bind_eq_ok_iff] at hload
  obtain ⟨_, hsame, overlays, hoverlays, hset⟩ := hload
  cases hown.symm.trans hsame
  cases hset
  rw [PropertySet.getElem?_merge, Option.or_eq_some_iff, layered_overlays_iff hown hoverlays]

/-- Trees that agree on the file and on the overlay files of its directories load it alike, also if
this fails. -/
theorem load_eq_of_agree
    {loader : OverlayLoader} {tree tree' : FileTree} {path : Path}
    (hread : tree'.read path = tree.read path)
    (hagree : ∀ directory ∈ loader.consulted path, ∀ name content,
      loader.HasOverlay tree' directory name content ↔
        loader.HasOverlay tree directory name content) :
    loader.load tree' path = loader.load tree path := by
  have hfile := PropertySet.ofFile_congr hread
  rw [load_eq, load_eq, hfile]
  cases hown : PropertySet.ofFile tree path with
  | error cause =>
      rfl
  | ok own =>
      have hsets :
          (loader.searched path).mapM (loader.setsIn tree') =
            (loader.searched path).mapM (loader.setsIn tree) := by
        apply mapM_congr
        intro directory hmem
        by_cases hempty : directory.bytes = []
        · rw [setsIn_of_bytes_eq_nil hempty, setsIn_of_bytes_eq_nil hempty]
        · have hconsulted : directory ∈ loader.consulted path :=
            List.mem_filter.mpr ⟨hmem, decide_eq_true hempty⟩
          exact setsIn_congr (hfile.trans hown) hown hconsulted (hagree directory hconsulted)
      simp only [overlaysOf_eq, hsets]

/-- The nearest overlay wins.  The directories that are consulted are those on the way down to the
file, but for the one that the empty path means; the file can be loaded exactly if it and the
overlay files of these directories are property files, and the paths of the directories are short
enough; each key then has the value of the file itself, else that of the nearest directory; and
nothing else matters. -/
theorem load_nearest
    (loader : OverlayLoader)
    (tree : FileTree)
    (path : Path) :
    (loader.consulted path).map Path.components = (loader.ways path).filter (· ≠ []) ∧
      ((∃ set, loader.load tree path = .ok set) ↔
        (∃ own, PropertySet.ofFile tree path = .ok own) ∧
        ∀ directory ∈ loader.consulted path,
          directory.bytes.length ≤ Path.lengthLimit ∧
          ∀ name content, loader.HasOverlay tree directory name content →
            ∃ set, PropertySet.ofFile tree (directory.child name) = .ok set) ∧
      (∀ set own,
        loader.load tree path = .ok set →
        PropertySet.ofFile tree path = .ok own →
        ∀ key value, set[key]? = some value ↔
          own[key]? = some value ∨
            own[key]? = none ∧ loader.Nearest tree key (loader.consulted path) value) ∧
      ∀ tree' : FileTree,
        tree'.read path = tree.read path →
        (∀ directory ∈ loader.consulted path, ∀ name content,
          loader.HasOverlay tree' directory name content ↔
            loader.HasOverlay tree directory name content) →
        loader.load tree' path = loader.load tree path := by
  refine ⟨map_components_consulted loader path, exists_load_eq_ok_iff, ?_, ?_⟩
  · intro set own hload hown
    exact getElem?_load_iff hload hown
  · intro tree' hread hagree
    exact load_eq_of_agree hread hagree

section Gatehouse

/-- A loader for files below the directory `flowgraph`. -/
def gatehouse : OverlayLoader where
  root := .ofText "flowgraph"
  propertyExtensions := ["properties"]
  overlayExtensions := ["conf"]

/-- A file below two directories with overlays, and one beside an overlay of the working
directory. -/
def gatehouseTree : FileTree :=
  let files :=
    [ (["common.conf"], "level=top\n"),
      (["gate.properties"], "own=1\n"),
      (["flowgraph", "a.conf"], "level=far\nside=far\n"),
      (["flowgraph", "A", "b.conf"], "level=first\n"),
      (["flowgraph", "A", "c.conf"], "level=last\n"),
      (["flowgraph", "A", "A.properties"], "own=1\n") ]
  let place := fun names : List String => ("work" :: names).map Name.ofText
  let directories := [["flowgraph"], ["flowgraph", "A"]]
  files.foldl (fun tree file => tree.insert (place file.1) (.file (Text.bytes file.2)))
    (directories.foldl (fun tree names => tree.insert (place names) .directory)
      (.empty (.ofText "work")))

theorem load_nearest_gatehouse :
    ∃ set own,
      gatehouse.load gatehouseTree (.ofText "flowgraph/A/A.properties") = .ok set ∧
      PropertySet.ofFile gatehouseTree (.ofText "flowgraph/A/A.properties") = .ok own ∧
      set["level"]? = some "last" ∧
      own["level"]? = none ∧
      gatehouse.Nearest gatehouseTree "level"
        (gatehouse.consulted (.ofText "flowgraph/A/A.properties")) "last" := by
  obtain ⟨set, hload, hset⟩ := Option.map_eq_some_iff.mp
    (show (gatehouse.load gatehouseTree (.ofText "flowgraph/A/A.properties")).toOption.map
      (·["level"]?) = some (some "last") by decide +kernel)
  obtain ⟨own, hown, hnone⟩ := Option.map_eq_some_iff.mp
    (show (PropertySet.ofFile gatehouseTree (.ofText "flowgraph/A/A.properties")).toOption.map
      (·["level"]?) = some none by decide +kernel)
  rw [toOption_eq_some_iff] at hload hown
  obtain ⟨-, -, hvalues, -⟩ :=
    load_nearest gatehouse gatehouseTree (.ofText "flowgraph/A/A.properties")
  refine ⟨set, own, hload, hown, hset, hnone, ?_⟩
  rcases (hvalues set own hload hown "level" "last").mp hset with hvalue | ⟨-, hnearest⟩
  · rw [hnone] at hvalue
    cases hvalue
  · exact hnearest

/-- A file that is named without a directory misses the overlays beside it. -/
theorem not_load_nearest :
    ¬ ∀ (loader : OverlayLoader) (tree : FileTree) (path : Path) (set own : PropertySet),
        loader.load tree path = .ok set →
        PropertySet.ofFile tree path = .ok own →
        ∀ key value, set[key]? = some value ↔
          own[key]? = some value ∨
            own[key]? = none ∧ loader.Nearest tree key (loader.searched path) value := by
  intro hsearched
  obtain ⟨set, hload, hset⟩ := Option.map_eq_some_iff.mp
    (show (gatehouse.load gatehouseTree (.ofText "gate.properties")).toOption.map
      (·["level"]?) = some none by decide +kernel)
  obtain ⟨own, hown, hnone⟩ := Option.map_eq_some_iff.mp
    (show (PropertySet.ofFile gatehouseTree (.ofText "gate.properties")).toOption.map
      (·["level"]?) = some none by decide +kernel)
  obtain ⟨overlay, hoverlay, htop⟩ := Option.map_eq_some_iff.mp
    (show (PropertySet.ofFile gatehouseTree (Path.child ⟨[]⟩ (.ofText "common.conf"))).toOption.map
      (·["level"]?) = some (some "top") by decide +kernel)
  rw [toOption_eq_some_iff] at hload hown hoverlay
  have henters : gatehouseTree.Enters ⟨[]⟩ [.ofText "work"] :=
    ⟨toOption_eq_some_iff.mp (by decide +kernel), by decide +kernel⟩
  have hcontent :
      gatehouseTree.read (Path.child ⟨[]⟩ (.ofText "common.conf")) =
        .ok (Text.bytes "level=top\n") :=
    toOption_eq_some_iff.mp (by decide +kernel)
  have hgives : gatehouse.Gives gatehouseTree ⟨[]⟩ (.ofText "common.conf") "level" "top" :=
    ⟨_, overlay, ⟨⟨_, henters, by decide +kernel⟩, by decide +kernel, hcontent⟩, hoverlay, htop⟩
  obtain ⟨value, hlast⟩ := exists_givesLast_iff.mpr ⟨_, _, hgives⟩
  have hnearest :
      gatehouse.Nearest gatehouseTree "level" (gatehouse.searched (.ofText "gate.properties"))
        value :=
    ⟨[], ⟨[]⟩, [], by decide +kernel, hlast, by simp⟩
  have hvalue :=
    (hsearched gatehouse gatehouseTree _ set own hload hown "level" value).mpr
      (Or.inr ⟨hnone, hnearest⟩)
  rw [hset] at hvalue
  cases hvalue

end Gatehouse

end OverlayLoader

end HopRouting
