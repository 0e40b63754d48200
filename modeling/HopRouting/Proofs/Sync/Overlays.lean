import HopRouting.Proofs.Sync.Scans
import HopRouting.Proofs.Topology.Index
import HopRouting.Sync.Overlay

/-!
# What a file is read with

The properties of a file come from the file and from the overlays of the directories on the way to
it.  So two trees of regular files that hold the same file, and that agree on the overlay files of
these directories, give the file the same properties, whatever else they hold (`load_congr`).
-/

namespace HopRouting

theorem Name.lt_asymm
    (name other : Name)
    (hlt : compare name other = .lt) :
    ¬ compare other name = .lt := by
  intro hgt
  have hswap : compare name other = (compare other name).swap := Std.OrientedCmp.eq_swap
  rw [hswap, hgt] at hlt
  cases hlt

namespace Path

theorem hasExtension_eq_of_fileName?_eq
    {path other : Path}
    (hname : path.fileName? = other.fileName?)
    (extensions : List String) :
    path.hasExtension extensions = other.hasExtension extensions := by
  simp only [hasExtension, extensionText?, extension?, hname]

end Path

theorem PropertySet.ofFile_congr
    {tree tree' : FileTree} {path : Path}
    (hread : tree.read path = tree'.read path) :
    ofFile tree path = ofFile tree' path := by
  simp only [ofFile, FileTree.readText, hread]

namespace FileTree

/-- Two trees hold the same files that have one of the extensions. -/
def AgreeOn (tree tree' : FileTree) (root : Path) (extensions : List String) : Prop :=
  ∀ names content, (Path.ofNames names).hasExtension extensions = true →
    (tree.HasFile root names content ↔ tree'.HasFile root names content)

theorem AgreeOn.symm
    {tree tree' : FileTree} {root : Path} {extensions : List String}
    (hagree : tree.AgreeOn tree' root extensions) :
    tree'.AgreeOn tree root extensions :=
  fun names content hextension => (hagree names content hextension).symm

/-- Two trees hold the same files in a directory that have one of the extensions. -/
def AgreeIn (tree tree' : FileTree) (root : Path) (directory : List Name)
    (extensions : List String) : Prop :=
  ∀ name content, (Path.ofNames (directory ++ [name])).hasExtension extensions = true →
    (tree.HasFile root (directory ++ [name]) content ↔
      tree'.HasFile root (directory ++ [name]) content)

/-- Two trees hold the same files with one of the extensions in all directories on the way to the
names. -/
def AgreeAbove (tree tree' : FileTree) (root : Path) (names : List Name)
    (extensions : List String) : Prop :=
  ∀ near far, near ≠ [] → far ≠ [] → names = near ++ far → tree.AgreeIn tree' root near extensions

theorem AgreeOn.agreeAbove
    {tree tree' : FileTree} {root : Path} {extensions : List String}
    (hagree : tree.AgreeOn tree' root extensions)
    (names : List Name) :
    tree.AgreeAbove tree' root names extensions :=
  fun near _ _ _ _ name content hextension => hagree (near ++ [name]) content hextension

section Names

variable {tree : FileTree} {location : Location}

theorem mem_namesIn_iff
    {name : Name} :
    name ∈ tree.namesIn location ↔ tree.entry? (location ++ [name]) ≠ none := by
  have hne : location ++ [name] ≠ [] := by simp
  rw [entry?_of_ne_nil hne, namesIn, List.mem_filterMap, ← Option.isSome_iff_ne_none,
    ← Std.ExtTreeMap.mem_iff_isSome_getElem?, ← Std.ExtTreeMap.mem_keys]
  constructor
  · rintro ⟨key, hkey, hname⟩
    split at hname
    · next found hstarts =>
      cases hname
      rwa [List.isPrefixOf?_eq_some_iff_append_eq.mp hstarts]
    · cases hname
  · intro hkey
    refine ⟨_, hkey, ?_⟩
    have hstarts : location.isPrefixOf? (location ++ [name]) = some [name] :=
      List.isPrefixOf?_eq_some_iff_append_eq.mpr rfl
    simp only [hstarts]

theorem compare_append
    (location : Location)
    (name other : Name) :
    compare (location ++ [name]) (location ++ [other]) = compare name other := by
  simp only [List.compare_eq_compareLex (α := Name)]
  induction location with
  | nil =>
      rw [List.nil_append, List.nil_append, List.compareLex_cons_cons, List.compareLex_nil_nil,
        Ordering.then_eq]
  | cons first rest ih =>
      have hfirst : compare first first = .eq := Std.ReflCmp.compare_self
      rw [List.cons_append, List.cons_append, List.compareLex_cons_cons, hfirst, Ordering.eq_then,
        ih]

theorem sorted_namesIn
    (tree : FileTree)
    (location : Location) :
    (tree.namesIn location).Pairwise fun name other => compare name other = .lt := by
  unfold namesIn
  refine List.Pairwise.filterMap _ ?_ tree.entries.ordered_keys
  rintro key key' hlt name hname name' hname'
  split at hname
  · next found hstarts =>
    split at hname'
    · next found' hstarts' =>
      cases hname
      cases hname'
      rw [← List.isPrefixOf?_eq_some_iff_append_eq.mp hstarts,
        ← List.isPrefixOf?_eq_some_iff_append_eq.mp hstarts', compare_append] at hlt
      exact hlt
    · cases hname'
  · cases hname

end Names

/-- The names lead from a directory of regular files down to another one. -/
structure Reaches (tree : FileTree) (root : Path) (location : Location) (directory : List Name) :
    Prop where
  regular : tree.Regular root
  located : tree.locate root = .ok location
  leads : tree.Leads location directory
  isDirectory : tree.isDirectoryAt (location ++ directory) = true

/-- A file of a directory can be read if it is there and its path can be used. -/
theorem Reaches.read_child_iff
    {tree : FileTree} {root : Path} {location : Location} {directory : List Name}
    (hreaches : tree.Reaches root location directory)
    (hdirectory : OrdinaryNames directory)
    {name : Name}
    (hname : name.Ordinary)
    {content : List UInt8} :
    tree.read ((root.join (.ofNames directory)).child name) = .ok content ↔
      ((root.join (.ofNames directory)).child name).check = .ok () ∧
      name.length ≤ Name.lengthLimit ∧
      tree.HasFile root (directory ++ [name]) content := by
  have hlocate := hreaches.located
  have hboth := hdirectory.concat hname
  have hchild :
      (root.join (.ofNames directory)).child name = root.join (.ofNames (directory ++ [name])) := by
    rw [Path.child, ← Path.ofNames_singleton,
      Path.join_join (bytes_ne_nil_of_locate hlocate) hdirectory (.singleton hname) hboth]
  rw [hchild, read_join_iff hlocate (hreaches.regular.plain location hlocate) hboth,
    leads_append_iff, leads_singleton_iff]
  constructor
  · rintro ⟨hcheck, ⟨-, -, hshort, -⟩, hentry⟩
    exact ⟨hcheck, hshort, location, hlocate, hentry⟩
  · rintro ⟨hcheck, hshort, found, hfound, hentry⟩
    cases hlocate.symm.trans hfound
    refine ⟨hcheck, ⟨hreaches.leads, hreaches.isDirectory, hshort, ?_⟩, hentry⟩
    rw [List.append_assoc, hentry]
    simp

theorem isFile_iff
    {tree : FileTree} {path : Path} :
    tree.isFile path = true ↔ ∃ content, tree.read path = .ok content := by
  unfold isFile
  cases tree.read path with
  | error cause => simp [Except.isOk, Except.toBool]
  | ok content => simp [Except.isOk, Except.toBool]

end FileTree

namespace OverlayLoader

section Directories

variable {root : Path} (hroot : root.bytes ≠ [])

include hroot

/-- The directories on the way down are those that the names so far lead to. -/
theorem mem_descend
    {front back : List Name}
    (hfront : OrdinaryNames front)
    (hboth : OrdinaryNames (front ++ back))
    {directory : Path}
    (hmem : directory ∈ descend (root.join (.ofNames front)) (back.map Component.name)) :
    ∃ near far, back = near ++ far ∧ directory = root.join (.ofNames (front ++ near)) := by
  induction back generalizing front with
  | nil =>
      refine ⟨[], [], rfl, ?_⟩
      rw [List.append_nil]
      exact List.mem_singleton.mp hmem
  | cons name rest ih =>
      have hname : name.Ordinary := hboth.ordinary name (by simp)
      have hassoc : front ++ name :: rest = front ++ [name] ++ rest := by simp
      rw [List.map_cons, descend] at hmem
      rcases List.mem_cons.mp hmem with rfl | hdeeper
      · exact ⟨[], name :: rest, rfl, by rw [List.append_nil]⟩
      · have hnext := hfront.concat hname
        rw [Component.bytes, ← Path.ofNames_singleton,
          Path.join_join hroot hfront (.singleton hname) hnext] at hdeeper
        obtain ⟨near, far, rfl, rfl⟩ := ih hnext (hassoc ▸ hboth) hdeeper
        refine ⟨name :: near, far, rfl, ?_⟩
        rw [List.append_assoc, List.singleton_append]

/-- The directories whose overlays count lie on the way to the file. -/
theorem mem_directories
    {loader : OverlayLoader} {front back : List Name}
    (hloader : loader.root = root.join (.ofNames front))
    (hfront : OrdinaryNames front)
    (hboth : OrdinaryNames (front ++ back))
    {directory : Path}
    (hmem : directory ∈ loader.directories (root.join (.ofNames (front ++ back)))) :
    ∃ near far, back = near ++ far ∧ directory = root.join (.ofNames (front ++ near)) := by
  have hbelow :
      (root.join (.ofNames (front ++ back))).below? loader.root =
        some (back.map Component.name) := by
    rw [Path.below?, List.isPrefixOf?_eq_some_iff_append_eq, hloader,
      Path.components_join hroot hboth, Path.components_join hroot hfront, List.map_append,
      List.append_assoc]
  rw [directories, hbelow, hloader] at hmem
  exact mem_descend hroot hfront hboth hmem

end Directories

/-- The names of the overlay files in the directory at a location. -/
def overlayNames (loader : OverlayLoader) (tree : FileTree) (location : Location)
    (directory : Path) : List Name :=
  (tree.namesIn location).filter fun name =>
    tree.isFile (directory.child name) &&
      (directory.child name).hasExtension loader.overlayExtensions

theorem sorted_overlayNames
    (loader : OverlayLoader)
    (tree : FileTree)
    (location : Location)
    (directory : Path) :
    (loader.overlayNames tree location directory).Pairwise fun name other =>
      compare name other = .lt :=
  (tree.sorted_namesIn location).filter _

/-- The properties of the overlay files in a directory, in the order of their names. -/
def setsIn (loader : OverlayLoader) (tree : FileTree) (directory : Path) :
    Except PropertyFileError (List PropertySet) := do
  (← loader.overlaysIn tree directory).mapM (PropertySet.ofFile tree)

theorem overlaysOf_eq
    (loader : OverlayLoader)
    (tree : FileTree)
    (directories : List Path) :
    loader.overlaysOf tree directories =
      (directories.mapM (loader.setsIn tree) >>= fun blocks => pure blocks.flatten) :=
  rfl

/-- In a directory that can be listed, the overlay files are read one after the other. -/
theorem setsIn_of_list
    (loader : OverlayLoader)
    {tree : FileTree} {location : Location} {directory : Path}
    (hlist : tree.list directory = .ok (tree.namesIn location)) :
    loader.setsIn tree directory =
      (loader.overlayNames tree location directory).mapM fun name =>
        PropertySet.ofFile tree (directory.child name) := by
  have hpaths :
      loader.overlaysIn tree directory =
        .ok ((loader.overlayNames tree location directory).map directory.child) := by
    simp only [overlaysIn, hlist, overlayNames, List.filter_map]
    rfl
  rw [setsIn, hpaths]
  exact List.mapM_map

/-- The overlay files of a directory are decided by their names. -/
theorem overlayNames_eq_of_mem_iff
    {loader : OverlayLoader} {tree tree' : FileTree} {location location' : Location}
    {directory directory' : Path}
    (hmem : ∀ name,
      name ∈ loader.overlayNames tree location directory ↔
        name ∈ loader.overlayNames tree' location' directory') :
    loader.overlayNames tree location directory =
      loader.overlayNames tree' location' directory' := by
  apply eq_of_pairwise_of_mem_iff (R := fun name other : Name => compare name other = .lt)
  · intro name hlt
    exact Name.lt_asymm name name hlt hlt
  · exact Name.lt_asymm
  · exact loader.sorted_overlayNames tree location directory
  · exact loader.sorted_overlayNames tree' location' directory'
  · exact hmem

section Directory

variable {loader : OverlayLoader} {tree : FileTree} {root : Path} {location : Location}
variable {directory : List Name}
variable (hreaches : tree.Reaches root location directory) (hdirectory : OrdinaryNames directory)

include hreaches hdirectory

theorem setsIn_eq
    (hcheck : (root.join (.ofNames directory)).check = .ok ()) :
    loader.setsIn tree (root.join (.ofNames directory)) =
      (loader.overlayNames tree (location ++ directory) (root.join (.ofNames directory))).mapM
        fun name => PropertySet.ofFile tree ((root.join (.ofNames directory)).child name) := by
  have hplain := hreaches.regular.plain location hreaches.located
  apply loader.setsIn_of_list
  exact FileTree.list_join hreaches.located hplain hdirectory hcheck hreaches.leads
    hreaches.isDirectory

theorem mem_overlayNames_iff
    {name : Name} :
    name ∈ loader.overlayNames tree (location ++ directory) (root.join (.ofNames directory)) ↔
      name.Ordinary ∧
      ((root.join (.ofNames directory)).child name).check = .ok () ∧
      name.length ≤ Name.lengthLimit ∧
      ((root.join (.ofNames directory)).child name).hasExtension loader.overlayExtensions = true ∧
      ∃ content, tree.HasFile root (directory ++ [name]) content := by
  rw [overlayNames, List.mem_filter, Bool.and_eq_true, FileTree.isFile_iff,
    FileTree.mem_namesIn_iff]
  constructor
  · rintro ⟨hpresent, ⟨content, hread⟩, hextension⟩
    obtain ⟨entry, hentry⟩ := Option.ne_none_iff_exists'.mp hpresent
    rw [List.append_assoc] at hentry
    have hname : name.Ordinary :=
      hreaches.regular.ordinary location _ entry hreaches.located hentry name (by simp)
    obtain ⟨hcheck, hshort, hfile⟩ := (hreaches.read_child_iff hdirectory hname).mp hread
    exact ⟨hname, hcheck, hshort, hextension, content, hfile⟩
  · rintro ⟨hname, hcheck, hshort, hextension, content, hfile⟩
    refine ⟨?_, ⟨content, ?_⟩, hextension⟩
    · obtain ⟨found, hfound, hentry⟩ := hfile
      cases hreaches.located.symm.trans hfound
      rw [List.append_assoc, hentry]
      exact Option.some_ne_none _
    · exact (hreaches.read_child_iff hdirectory hname).mpr ⟨hcheck, hshort, hfile⟩

end Directory

section Agreement

variable {loader : OverlayLoader} {tree tree' : FileTree} {root : Path}
variable {location location' : Location}

section OneDirectory

variable {directory : List Name}
variable (hagree : tree.AgreeIn tree' root directory loader.overlayExtensions)
variable (hreaches : tree.Reaches root location directory)
variable (hreaches' : tree'.Reaches root location' directory)
variable (hdirectory : OrdinaryNames directory)

include hagree hreaches hreaches' hdirectory

omit hreaches' in
/-- An overlay file has the same content in both trees. -/
theorem hasFile_congr
    {name : Name}
    (hname : name.Ordinary)
    (hextension :
      ((root.join (.ofNames directory)).child name).hasExtension loader.overlayExtensions = true)
    (content : List UInt8) :
    tree.HasFile root (directory ++ [name]) content ↔
      tree'.HasFile root (directory ++ [name]) content := by
  have hboth := hdirectory.concat hname
  have hroot := FileTree.bytes_ne_nil_of_locate hreaches.located
  have hsame :
      (Path.ofNames (directory ++ [name])).fileName? =
        ((root.join (.ofNames directory)).child name).fileName? := by
    rw [Path.child, ← Path.ofNames_singleton,
      Path.join_join hroot hdirectory (.singleton hname) hboth, Path.fileName?_join hroot hboth,
      Path.fileName?_ofNames hboth]
  apply hagree
  rw [Path.hasExtension_eq_of_fileName?_eq hsame]
  exact hextension

theorem overlayNames_congr :
    loader.overlayNames tree (location ++ directory) (root.join (.ofNames directory)) =
      loader.overlayNames tree' (location' ++ directory) (root.join (.ofNames directory)) := by
  apply overlayNames_eq_of_mem_iff
  intro name
  rw [mem_overlayNames_iff hreaches hdirectory, mem_overlayNames_iff hreaches' hdirectory]
  refine and_congr_right fun hname => and_congr_right fun _ => and_congr_right fun _ =>
    and_congr_right fun hextension => exists_congr ?_
  exact hasFile_congr hagree hreaches hdirectory hname hextension

/-- The overlays of the directory give the same properties in both trees. -/
theorem setsIn_congr_of_reaches
    (hcheck : (root.join (.ofNames directory)).check = .ok ()) :
    loader.setsIn tree (root.join (.ofNames directory)) =
      loader.setsIn tree' (root.join (.ofNames directory)) := by
  rw [setsIn_eq hreaches hdirectory hcheck, setsIn_eq hreaches' hdirectory hcheck,
    overlayNames_congr hagree hreaches hreaches' hdirectory]
  apply mapM_congr
  intro name hname
  obtain ⟨hordinary, husable, hshort, hextension, content, hfile'⟩ :=
    (mem_overlayNames_iff hreaches' hdirectory).mp hname
  have hfile :=
    (hasFile_congr hagree hreaches hdirectory hordinary hextension content).mpr hfile'
  apply PropertySet.ofFile_congr
  rw [(hreaches.read_child_iff hdirectory hordinary).mpr ⟨husable, hshort, hfile⟩,
    (hreaches'.read_child_iff hdirectory hordinary).mpr ⟨husable, hshort, hfile'⟩]

end OneDirectory

variable (hregular : tree.Regular root) (hregular' : tree'.Regular root)

include hregular hregular'

/-- A file that both trees hold is read with the same properties from them, if they agree
on the overlay files on the way to it. -/
theorem load_congr
    {front back : List Name} {last : Name}
    (hagree : tree.AgreeAbove tree' root (front ++ back ++ [last]) loader.overlayExtensions)
    (hloader : loader.root = root.join (.ofNames front))
    (hfront : OrdinaryNames front)
    (hnames : OrdinaryNames (front ++ back ++ [last]))
    {content : List UInt8}
    (hlocate : tree.locate root = .ok location)
    (hlocate' : tree'.locate root = .ok location')
    (hread : tree.read (root.join (.ofNames (front ++ back ++ [last]))) = .ok content)
    (hread' : tree'.read (root.join (.ofNames (front ++ back ++ [last]))) = .ok content) :
    loader.load tree (root.join (.ofNames (front ++ back ++ [last]))) =
      loader.load tree' (root.join (.ofNames (front ++ back ++ [last]))) := by
  have hroot := FileTree.bytes_ne_nil_of_locate hlocate
  have hboth : OrdinaryNames (front ++ back) :=
    hnames.of_append_left (List.append_ne_nil_of_left_ne_nil hfront.ne_nil _)
  have hlast : last.Ordinary := hnames.ordinary last (by simp)
  have hown :
      PropertySet.ofFile tree (root.join (.ofNames (front ++ back ++ [last]))) =
        PropertySet.ofFile tree' (root.join (.ofNames (front ++ back ++ [last]))) := by
    apply PropertySet.ofFile_congr
    rw [hread, hread']
  obtain ⟨hcheck, hleads, -⟩ :=
    (FileTree.read_join_iff hlocate (hregular.plain location hlocate) hnames).mp hread
  obtain ⟨-, hleads', -⟩ :=
    (FileTree.read_join_iff hlocate' (hregular'.plain location' hlocate') hnames).mp hread'
  have hoverlays :
      loader.overlaysOf tree (loader.directories (root.join (.ofNames (front ++ back)))) =
        loader.overlaysOf tree' (loader.directories (root.join (.ofNames (front ++ back)))) := by
    rw [overlaysOf_eq, overlaysOf_eq]
    congr 1
    apply mapM_congr
    intro directory hdirectory
    obtain ⟨near, far, rfl, rfl⟩ := mem_directories hroot hloader hfront hboth hdirectory
    have hsplit :
        front ++ (near ++ far) ++ [last] = front ++ near ++ (far ++ [last]) := by
      simp
    rw [hsplit] at hcheck hleads hleads' hnames hagree
    have hnear : OrdinaryNames (front ++ near) :=
      hnames.of_append_left (List.append_ne_nil_of_left_ne_nil hfront.ne_nil _)
    have hfar : far ++ [last] ≠ [] := by simp
    have husable : (root.join (.ofNames (front ++ near))).check = .ok () := by
      rw [← Path.join_join hroot hnear (hnames.of_append_right hfar) hnames] at hcheck
      exact Path.check_of_check_join (Path.join_bytes_ne_nil hroot hnear)
        (hnames.of_append_right hfar) hcheck
    exact setsIn_congr_of_reaches (hagree (front ++ near) (far ++ [last]) hnear.ne_nil hfar rfl)
      ⟨hregular, hlocate, (FileTree.leads_append_iff.mp hleads).1, hleads.isDirectoryAt hfar⟩
      ⟨hregular', hlocate', (FileTree.leads_append_iff.mp hleads').1, hleads'.isDirectoryAt hfar⟩
      hnear husable
  unfold load
  rw [hown, Path.parent?_join hroot hboth hlast, Option.toList_some, List.flatMap_singleton,
    hoverlays]

end Agreement

end OverlayLoader

end HopRouting
