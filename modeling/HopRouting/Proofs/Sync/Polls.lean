import Mathlib.Data.Finset.Basic
import Mathlib.Data.List.Induction
import HopRouting.Proofs.Sync.Mirror

/-!
# What a directory source tells

A directory source is polled with one tree after the other, which is what the files are like at that
moment.  A poll of a tree that can be scanned tells how its files differ from those of the last such
tree; any other poll fails, tells nothing and is not remembered.

**Batches.**  `Tells` is what a batch must be that leads from some files to others: it has one
change for every file that is gone, new or different and none for any other, the deletions come
first, and both they and the rest are in the order of the paths, name by name.  Whoever follows such
a batch, and knew the files before, knows those after it (`Tells.mem_follow_iff`).

**Result.**  `DirectorySource.poll_tells`: every poll of a tree that can be scanned tells such a
batch, whatever was polled before, and all that was ever told adds up to the files of the last tree
that could be scanned.
-/

namespace HopRouting

namespace Change

/-- The names in the path that the change is about. -/
def names (change : Change) : List Name :=
  ((change.new.or change.old).map Settings.namesOf).getD []

/-- The changes are about different paths, in increasing order. -/
def Ascending (changes : List Change) : Prop :=
  (changes.map names).Pairwise fun names later => compare names later = .lt

/-- The paths that are known after one more change was followed. -/
def follow (files : Finset Path) (change : Change) : Finset Path :=
  match change.kind, change.old, change.new with
  | .add, _, some path => insert path files
  | .delete, some path, _ => files.erase path
  | _, _, _ => files

/-- The paths that are known to whoever followed all the changes and knew none before. -/
def known (changes : List Change) : Finset Path :=
  changes.foldl follow ∅

section Follow

variable {changes : List Change} {files : Finset Path} {path : Path}

theorem mem_follow_deletions_iff
    (hchanges : ∀ change ∈ changes, ∃ gone, change = .deleted gone) :
    path ∈ changes.foldl follow files ↔ path ∈ files ∧ .deleted path ∉ changes := by
  induction changes generalizing files with
  | nil =>
      simp
  | cons change rest ih =>
      obtain ⟨gone, rfl⟩ := hchanges change List.mem_cons_self
      rw [List.foldl_cons, ih fun other hother => hchanges other (List.mem_cons_of_mem _ hother)]
      have hstep : follow files (.deleted gone) = files.erase gone := rfl
      have hsame : Change.deleted path = .deleted gone ↔ path = gone := by simp [Change.deleted]
      rw [hstep, Finset.mem_erase, List.mem_cons, hsame, not_or]
      tauto

theorem mem_follow_updates_iff
    (hchanges : ∀ change ∈ changes, ∃ named, change = .added named ∨ change = .modified named) :
    path ∈ changes.foldl follow files ↔ path ∈ files ∨ .added path ∈ changes := by
  induction changes generalizing files with
  | nil =>
      simp
  | cons change rest ih =>
      rw [List.foldl_cons, ih fun other hother => hchanges other (List.mem_cons_of_mem _ hother)]
      obtain ⟨named, rfl | rfl⟩ := hchanges change List.mem_cons_self
      · have hstep : follow files (.added named) = insert named files := rfl
        have hsame : Change.added path = .added named ↔ path = named := by simp [Change.added]
        rw [hstep, Finset.mem_insert, List.mem_cons, hsame]
        tauto
      · have hstep : follow files (.modified named) = files := rfl
        have hdifferent : Change.added path ≠ .modified named := by
          simp [Change.added, Change.modified]
        rw [hstep, List.mem_cons, or_iff_right hdifferent]

end Follow

end Change

/-- The batch leads from the files that were there `before` to those that are there `after`. -/
structure Tells (before after : Path → List UInt8 → Prop) (changes : List Change) : Prop where
  deleted_iff :
    ∀ path, .deleted path ∈ changes ↔
      (∃ content, before path content) ∧ ¬ ∃ content, after path content
  added_iff :
    ∀ path, .added path ∈ changes ↔
      (¬ ∃ content, before path content) ∧ ∃ content, after path content
  modified_iff :
    ∀ path, .modified path ∈ changes ↔
      ∃ old new, before path old ∧ after path new ∧ old ≠ new
  only :
    ∀ change ∈ changes, ∃ path,
      change = .deleted path ∨ change = .added path ∨ change = .modified path
  once : (changes.map Change.names).Nodup
  ordered :
    ∃ deletions updates, changes = deletions ++ updates ∧
      (∀ change ∈ deletions, change.kind = .delete) ∧
      (∀ change ∈ updates, change.kind ≠ .delete) ∧
      Change.Ascending deletions ∧
      Change.Ascending updates

/-- Whoever knew the files before a batch knows those after it. -/
theorem Tells.mem_follow_iff
    {before after : Path → List UInt8 → Prop} {changes : List Change}
    (htells : Tells before after changes)
    {files : Finset Path}
    (hfiles : ∀ path, path ∈ files ↔ ∃ content, before path content)
    (path : Path) :
    path ∈ changes.foldl Change.follow files ↔ ∃ content, after path content := by
  obtain ⟨deletions, updates, rfl, hdeletions, hupdates, -, -⟩ := htells.ordered
  have hgone : ∀ change ∈ deletions, ∃ path, change = .deleted path := by
    intro change hchange
    obtain ⟨path, rfl | rfl | rfl⟩ := htells.only change (List.mem_append_left _ hchange)
    · exact ⟨path, rfl⟩
    · cases hdeletions _ hchange
    · cases hdeletions _ hchange
  have hnamed : ∀ change ∈ updates, ∃ path, change = .added path ∨ change = .modified path := by
    intro change hchange
    obtain ⟨path, rfl | rfl | rfl⟩ := htells.only change (List.mem_append_right _ hchange)
    · exact absurd rfl (hupdates _ hchange)
    · exact ⟨path, Or.inl rfl⟩
    · exact ⟨path, Or.inr rfl⟩
  have hdeleted := htells.deleted_iff path
  have hadded := htells.added_iff path
  rw [List.mem_append] at hdeleted hadded
  have hlate : .deleted path ∉ updates := fun hmem => hupdates _ hmem rfl
  have hearly : .added path ∉ deletions := fun hmem => by cases hdeletions _ hmem
  rw [or_iff_left hlate] at hdeleted
  rw [or_iff_right hearly] at hadded
  rw [List.foldl_append, Change.mem_follow_updates_iff hnamed,
    Change.mem_follow_deletions_iff hgone, hfiles path, hdeleted, hadded]
  by_cases hbefore : ∃ content, before path content
  · simp only [hbefore, true_and, not_true_eq_false, false_and, or_false, not_not]
  · simp only [hbefore, not_false_eq_true, false_and, true_and, false_or]

namespace FileTree

/-- A regular file that can be seen below the root: nothing on the way to it is hidden. -/
def Shows (tree : FileTree) (root path : Path) (content : List UInt8) : Prop :=
  ∃ names, path = .ofNames names ∧ Scan.hiddenName ∉ names ∧ tree.HasFile root names content

/-- The root leads to a directory, and every file and directory that can be seen below it has a path
through the root that can be used. -/
def Scannable (tree : FileTree) (root : Path) : Prop :=
  ∃ location, tree.locate root = .ok location ∧ tree.isDirectoryAt location ∧
    ∀ names entry, names ≠ [] → Scan.hiddenName ∉ names →
      tree.entry? (location ++ names) = some entry → (∀ target, entry ≠ .link target) →
        (root.join (.ofNames names)).check = .ok ()

/-- What lies below the root has names that a directory can hold an entry under. -/
def NamedBelow (tree : FileTree) (root : Path) : Prop :=
  ∀ location names entry, tree.locate root = .ok location →
    tree.entry? (location ++ names) = some entry → ∀ name ∈ names, name.Ordinary

end FileTree

namespace Scan

/-- The scan has the file. -/
def Holds (scan : Scan) (path : Path) (content : List UInt8) : Prop :=
  ∃ names, path = .ofNames names ∧ scan[names]? = some content

/-- The files of the scan lie under ordinary names. -/
def Named (scan : Scan) : Prop :=
  ∀ names ∈ scan, OrdinaryNames names

section OfTree

variable {tree : FileTree} {root : Path} {scan : Scan}

theorem holds_ofTree_iff
    (hroot : root.fileName? ≠ some hiddenName)
    (hscan : ofTree tree root = .ok scan)
    {path : Path} {content : List UInt8} :
    scan.Holds path content ↔ tree.Shows root path content :=
  exists_congr fun _ => and_congr_right fun _ => getElem?_ofTree_iff hroot hscan

theorem named_ofTree
    (hroot : root.fileName? ≠ some hiddenName)
    (hnamed : tree.NamedBelow root)
    (hscan : ofTree tree root = .ok scan) :
    scan.Named := by
  intro names hnames
  obtain ⟨content, hcontent⟩ := mem_iff_exists.mp hnames
  obtain ⟨-, location, hlocate, hentry⟩ := (getElem?_ofTree_iff hroot hscan).mp hcontent
  obtain ⟨found, hfound, hdirectory, -⟩ := exists_location_of_ofTree hroot hscan
  cases hlocate.symm.trans hfound
  refine ⟨?_, hnamed location names _ hlocate hentry⟩
  rintro rfl
  rw [List.append_nil] at hentry
  simp [FileTree.isDirectoryAt, hentry] at hdirectory

theorem fault?_eq_none_iff
    {names : Location} {entry : Entry} :
    fault? root names entry = none ↔
      (hiddenName ∉ names → (∀ target, entry ≠ .link target) →
        (root.join (.ofNames names)).check = .ok ()) := by
  unfold fault?
  split_ifs with hhidden
  · simp [hhidden]
  · cases hcheck : (root.join (.ofNames names)).check with
    | ok _ => simp [hcheck]
    | error cause => cases entry <;> simp [hcheck, hhidden]

/-- What can be scanned is scanned, and nothing else is. -/
theorem exists_ofTree_iff
    (hroot : root.fileName? ≠ some hiddenName) :
    (∃ scan, ofTree tree root = .ok scan) ↔ tree.Scannable root := by
  unfold ofTree FileTree.Scannable
  cases hlocate : tree.locate root with
  | error cause =>
      simp
  | ok location =>
      simp only [Except.ok.injEq, exists_eq_left']
      cases tree.isDirectoryAt location with
      | false =>
          simp
      | true =>
          simp only [hroot, Bool.not_true, Bool.false_eq_true, if_false, true_and]
          split
          · next cause hfault =>
            obtain ⟨⟨names, entry⟩, hentry, hfails⟩ := List.exists_of_findSome?_eq_some hfault
            obtain ⟨hne, hentry⟩ := FileTree.mem_below_iff.mp hentry
            constructor
            · rintro ⟨scan, ⟨⟩⟩
            · intro hcheck
              have hnone : fault? root names entry = none :=
                fault?_eq_none_iff.mpr fun hvisible => hcheck names entry hne hvisible hentry
              cases hnone.symm.trans hfails
          · next hnone =>
            rw [List.findSome?_eq_none_iff] at hnone
            constructor
            · intro _ names entry hne hvisible hentry
              have hbelow := FileTree.mem_below_iff.mpr ⟨hne, hentry⟩
              exact fault?_eq_none_iff.mp (hnone (names, entry) hbelow) hvisible
            · intro _
              exact ⟨_, rfl⟩

end OfTree

section Changes

variable {before after : Scan}

theorem not_mem_iff
    {scan : Scan} {names : Location} :
    names ∉ scan ↔ scan[names]? = none := by
  rw [Std.ExtTreeMap.mem_iff_isSome_getElem?, Option.not_isSome_iff_eq_none]

theorem sorted_gone
    (before after : Scan) :
    (gone before after).Pairwise fun names later => compare names later = .lt :=
  before.ordered_keys.filter _

theorem sorted_touched
    (before after : Scan) :
    (touched before after).Pairwise fun names later => compare names later = .lt := by
  refine List.Pairwise.filterMap _ ?_ after.ordered_keys_toList
  rintro ⟨key, content⟩ ⟨later, content'⟩ hlt names hnames names' hnames'
  dsimp only at hnames hnames'
  split at hnames
  · cases hnames
  · split at hnames'
    · cases hnames'
    · cases hnames
      cases hnames'
      exact hlt

theorem nodup_of_sorted
    {files : List Location}
    (hsorted : files.Pairwise fun names later => compare names later = .lt) :
    files.Nodup := by
  apply hsorted.imp
  rintro names _ hlt rfl
  have hself : compare names names = .eq := Std.ReflCmp.compare_self
  cases hself.symm.trans hlt

theorem ofNames_inj
    {names names' : List Name}
    (hnames : OrdinaryNames names)
    (hnames' : OrdinaryNames names')
    (hsame : Path.ofNames names = Path.ofNames names') :
    names = names' := by
  rw [← Path.segments_ofNames hnames, hsame, Path.segments_ofNames hnames']

theorem Named.holds_iff
    {scan : Scan}
    (hscan : scan.Named)
    {names : Location}
    (hnames : OrdinaryNames names)
    {content : List UInt8} :
    scan.Holds (.ofNames names) content ↔ scan[names]? = some content := by
  constructor
  · rintro ⟨names', hsame, hcontent⟩
    have hnames' := hscan names' (mem_iff_exists.mpr ⟨content, hcontent⟩)
    rwa [ofNames_inj hnames hnames' hsame]
  · intro hcontent
    exact ⟨names, rfl, hcontent⟩

theorem Named.exists_holds_iff
    {scan : Scan}
    (hscan : scan.Named)
    {names : Location}
    (hnames : OrdinaryNames names) :
    (∃ content, scan.Holds (.ofNames names) content) ↔ names ∈ scan := by
  rw [mem_iff_exists]
  exact exists_congr fun _ => hscan.holds_iff hnames

theorem Named.exists_names_of_holds
    {scan : Scan}
    (hscan : scan.Named)
    {path : Path} {content : List UInt8}
    (hholds : scan.Holds path content) :
    ∃ names, OrdinaryNames names ∧ path = .ofNames names := by
  obtain ⟨names, rfl, hcontent⟩ := hholds
  exact ⟨names, hscan names (mem_iff_exists.mpr ⟨content, hcontent⟩), rfl⟩

/-- The files of one scan that another does not have. -/
theorem Named.exists_missing_iff
    {scan other : Scan}
    (hscan : scan.Named)
    (hother : other.Named)
    {path : Path} :
    (∃ names, names ∈ scan ∧ names ∉ other ∧ path = .ofNames names) ↔
      (∃ content, scan.Holds path content) ∧ ¬ ∃ content, other.Holds path content := by
  constructor
  · rintro ⟨names, hpresent, habsent, rfl⟩
    have hnames := hscan names hpresent
    rw [hscan.exists_holds_iff hnames, hother.exists_holds_iff hnames]
    exact ⟨hpresent, habsent⟩
  · rintro ⟨⟨content, hholds⟩, habsent⟩
    obtain ⟨names, hnames, rfl⟩ := hscan.exists_names_of_holds hholds
    rw [hother.exists_holds_iff hnames] at habsent
    exact ⟨names, (hscan.exists_holds_iff hnames).mp ⟨content, hholds⟩, habsent, rfl⟩

/-- The files of two scans that they have with different content. -/
theorem Named.exists_different_iff
    {scan other : Scan}
    (hscan : scan.Named)
    (hother : other.Named)
    {path : Path} :
    (∃ names old new, scan[names]? = some old ∧ other[names]? = some new ∧ old ≠ new ∧
        path = .ofNames names) ↔
      ∃ old new, scan.Holds path old ∧ other.Holds path new ∧ old ≠ new := by
  constructor
  · rintro ⟨names, old, new, hold, hnew, hne, rfl⟩
    exact ⟨old, new, ⟨names, rfl, hold⟩, ⟨names, rfl, hnew⟩, hne⟩
  · rintro ⟨old, new, hold, hnew, hne⟩
    obtain ⟨names, hnames, rfl⟩ := hscan.exists_names_of_holds hold
    rw [hscan.holds_iff hnames] at hold
    rw [hother.holds_iff hnames] at hnew
    exact ⟨names, old, new, hold, hnew, hne, rfl⟩

theorem names_update
    (before : Scan)
    {names : Location}
    (hnames : OrdinaryNames names) :
    (before.update names).names = names := by
  unfold update
  split
  · exact Settings.namesOf_ofNames hnames
  · exact Settings.namesOf_ofNames hnames

theorem map_names
    {files : List Location} {tell : Location → Change}
    (htell : ∀ names ∈ files, (tell names).names = names) :
    (files.map tell).map Change.names = files := by
  rw [List.map_map]
  exact (List.map_congr_left htell).trans (List.map_id' files)

section Told

variable (hbefore : before.Named) (hafter : after.Named)

theorem update_eq_or
    (before : Scan)
    (names : Location) :
    (before[names]? = none ∧ before.update names = .added (.ofNames names)) ∨
      ∃ old, before[names]? = some old ∧ before.update names = .modified (.ofNames names) := by
  unfold update
  rw [Std.ExtTreeMap.contains_eq_isSome_getElem?]
  cases before[names]? with
  | none => exact Or.inl ⟨rfl, rfl⟩
  | some old => exact Or.inr ⟨old, rfl, rfl⟩

/-- What is told of a file. -/
theorem mem_changes_iff
    {change : Change} :
    change ∈ before.changes after ↔
      ∃ names,
        (names ∈ before ∧ names ∉ after ∧ change = .deleted (.ofNames names)) ∨
        (names ∈ after ∧ names ∉ before ∧ change = .added (.ofNames names)) ∨
        ∃ old new, before[names]? = some old ∧ after[names]? = some new ∧ old ≠ new ∧
          change = .modified (.ofNames names) := by
  rw [changes_eq, List.mem_append, List.mem_map, List.mem_map]
  constructor
  · rintro (⟨names, hnames, rfl⟩ | ⟨names, hnames, rfl⟩)
    · obtain ⟨hold, hnew⟩ := (mem_gone_iff before after).mp hnames
      exact ⟨names, Or.inl ⟨hold, not_mem_iff.mpr hnew, rfl⟩⟩
    · obtain ⟨new, hnew, hdifferent⟩ := (mem_touched_iff before after).mp hnames
      rcases before.update_eq_or names with ⟨hold, htold⟩ | ⟨old, hold, htold⟩
      · have hpresent : names ∈ after := mem_iff_exists.mpr ⟨new, hnew⟩
        exact ⟨names, Or.inr (Or.inl ⟨hpresent, not_mem_iff.mpr hold, htold⟩)⟩
      · have hne : old ≠ new := fun hsame => hdifferent (hsame ▸ hold)
        exact ⟨names, Or.inr (Or.inr ⟨old, new, hold, hnew, hne, htold⟩)⟩
  · rintro ⟨names, ⟨hold, hnew, rfl⟩ | ⟨hnew, hold, rfl⟩ | ⟨old, new, hold, hnew, hne, rfl⟩⟩
    · have hgone := (mem_gone_iff before after).mpr
        ⟨hold, not_mem_iff.mp hnew⟩
      exact Or.inl ⟨names, hgone, rfl⟩
    · obtain ⟨new, hnew⟩ := mem_iff_exists.mp hnew
      have habsent : before[names]? = none := not_mem_iff.mp hold
      refine Or.inr ⟨names, (mem_touched_iff before after).mpr ⟨new, hnew, ?_⟩, ?_⟩
      · simp [habsent]
      · simp [update, hold]
    · have hpresent : names ∈ before := mem_iff_exists.mpr ⟨old, hold⟩
      refine Or.inr ⟨names, (mem_touched_iff before after).mpr ⟨new, hnew, ?_⟩, ?_⟩
      · simpa [hold] using hne
      · simp [update, hpresent]

theorem deleted_mem_changes_iff
    {path : Path} :
    .deleted path ∈ before.changes after ↔
      ∃ names, names ∈ before ∧ names ∉ after ∧ path = .ofNames names := by
  rw [mem_changes_iff]
  simp [Change.deleted, Change.added, Change.modified]

theorem added_mem_changes_iff
    {path : Path} :
    .added path ∈ before.changes after ↔
      ∃ names, names ∈ after ∧ names ∉ before ∧ path = .ofNames names := by
  rw [mem_changes_iff]
  simp [Change.deleted, Change.added, Change.modified]

theorem modified_mem_changes_iff
    {path : Path} :
    .modified path ∈ before.changes after ↔
      ∃ names old new, before[names]? = some old ∧ after[names]? = some new ∧ old ≠ new ∧
        path = .ofNames names := by
  rw [mem_changes_iff]
  simp [Change.deleted, Change.added, Change.modified]

include hbefore in
theorem names_deleted :
    ((gone before after).map fun names => Change.deleted (.ofNames names)).map Change.names =
      gone before after := by
  apply map_names
  intro names hnames
  exact Settings.namesOf_ofNames (hbefore names ((mem_gone_iff before after).mp hnames).1)

include hafter in
theorem names_updated :
    ((touched before after).map before.update).map Change.names = touched before after := by
  apply map_names
  intro names hnames
  obtain ⟨content, hcontent, -⟩ := (mem_touched_iff before after).mp hnames
  exact names_update before (hafter names (mem_iff_exists.mpr ⟨content, hcontent⟩))

include hbefore hafter

/-- No file is told of twice: what is gone is not there to be new or different. -/
theorem nodup_names_changes :
    ((before.changes after).map Change.names).Nodup := by
  rw [changes_eq, List.map_append, names_deleted hbefore, names_updated hafter,
    List.nodup_append']
  refine ⟨nodup_of_sorted (sorted_gone before after),
    nodup_of_sorted (sorted_touched before after), ?_⟩
  intro names hold hnew
  obtain ⟨-, habsent⟩ := (mem_gone_iff before after).mp hold
  obtain ⟨content, hcontent, -⟩ := (mem_touched_iff before after).mp hnew
  cases habsent.symm.trans hcontent

/-- The changes from one scan to another tell how the files of the one differ from those of the
other. -/
theorem tells_changes :
    Tells before.Holds after.Holds (before.changes after) := by
  constructor
  case deleted_iff =>
    intro path
    rw [deleted_mem_changes_iff]
    exact hbefore.exists_missing_iff hafter
  case added_iff =>
    intro path
    rw [added_mem_changes_iff, and_comm]
    exact hafter.exists_missing_iff hbefore
  case modified_iff =>
    intro path
    rw [modified_mem_changes_iff]
    exact hbefore.exists_different_iff hafter
  case only =>
    intro change hchange
    obtain ⟨names, ⟨-, -, hsame⟩ | ⟨-, -, hsame⟩ | ⟨_, _, -, -, -, hsame⟩⟩ :=
      mem_changes_iff.mp hchange
    · exact ⟨.ofNames names, Or.inl hsame⟩
    · exact ⟨.ofNames names, Or.inr (Or.inl hsame)⟩
    · exact ⟨.ofNames names, Or.inr (Or.inr hsame)⟩
  case once =>
    exact nodup_names_changes hbefore hafter
  case ordered =>
    refine ⟨_, _, before.changes_eq after, ?_, ?_, ?_, ?_⟩
    · intro change hchange
      obtain ⟨names, -, rfl⟩ := List.mem_map.mp hchange
      rfl
    · intro change hchange
      obtain ⟨names, -, rfl⟩ := List.mem_map.mp hchange
      rcases before.update_eq_or names with ⟨-, htold⟩ | ⟨_, -, htold⟩
      · rw [htold]
        exact ChangeKind.noConfusion
      · rw [htold]
        exact ChangeKind.noConfusion
    · rw [Change.Ascending, names_deleted hbefore]
      exact sorted_gone before after
    · rw [Change.Ascending, names_updated hafter]
      exact sorted_touched before after

end Told

end Changes

end Scan

/-- Of the trees, the last one that can be scanned. -/
def LastScanned (root : Path) (trees : List FileTree) (read : FileTree) : Prop :=
  ∃ front back, trees = front ++ read :: back ∧ read.Scannable root ∧
    ∀ later ∈ back, ¬ later.Scannable root

/-- The last of the trees that can be scanned shows the file. -/
def LastShown (root : Path) (trees : List FileTree) (path : Path) (content : List UInt8) : Prop :=
  ∃ read, LastScanned root trees read ∧ read.Shows root path content

section LastScanned

variable {root : Path} {past : List FileTree} {tree read : FileTree}

theorem lastScanned_append_singleton_iff :
    LastScanned root (past ++ [tree]) read ↔
      (tree.Scannable root ∧ read = tree) ∨
        (¬ tree.Scannable root ∧ LastScanned root past read) := by
  constructor
  · rintro ⟨front, back, hsplit, hread, hback⟩
    rcases List.eq_nil_or_concat back with rfl | ⟨back, last, rfl⟩
    · obtain ⟨-, hsame⟩ := List.append_inj' hsplit rfl
      cases hsame
      exact Or.inl ⟨hread, rfl⟩
    · rw [List.concat_eq_append, ← List.cons_append, ← List.append_assoc] at hsplit
      obtain ⟨rfl, hsame⟩ := List.append_inj' hsplit rfl
      cases hsame
      refine Or.inr ⟨hback tree (by simp), front, back, rfl, hread, ?_⟩
      intro later hlater
      exact hback later (by simp [hlater])
  · rintro (⟨htree, rfl⟩ | ⟨htree, front, back, rfl, hread, hback⟩)
    · exact ⟨past, [], rfl, htree, by simp⟩
    · refine ⟨front, back ++ [tree], by simp, hread, ?_⟩
      intro later hlater
      rcases List.mem_append.mp hlater with hlater | hlater
      · exact hback later hlater
      · rwa [List.mem_singleton.mp hlater]

end LastScanned

namespace DirectorySource

/-- The source after a poll with each of the trees. -/
def after (source : DirectorySource) (trees : List FileTree) : DirectorySource :=
  trees.foldl (fun source tree => (source.poll tree).2) source

/-- What the polls with the trees tell, one after the other; those that fail tell nothing. -/
def told (source : DirectorySource) : List FileTree → List Change
  | [] => []
  | tree :: trees => (source.poll tree).1.toOption.getD [] ++ (source.poll tree).2.told trees

theorem after_append_singleton
    (source : DirectorySource)
    (past : List FileTree)
    (tree : FileTree) :
    source.after (past ++ [tree]) = ((source.after past).poll tree).2 := by
  rw [after, List.foldl_append]
  rfl

theorem told_append_singleton
    (source : DirectorySource)
    (past : List FileTree)
    (tree : FileTree) :
    source.told (past ++ [tree]) =
      source.told past ++ ((source.after past).poll tree).1.toOption.getD [] := by
  induction past generalizing source with
  | nil =>
      exact List.append_nil _
  | cons first rest ih =>
      rw [List.cons_append, told, ih, told, List.append_assoc]
      rfl

/-- What is true of a source that has been polled: it has the files of the last tree that could be
scanned, and so has whoever followed what it told. -/
structure Remembers (source : DirectorySource) (root : Path) (past : List FileTree)
    (told : List Change) : Prop where
  root_eq : source.root = root
  named : source.seen.Named
  seen_iff : ∀ path content, source.seen.Holds path content ↔ LastShown root past path content
  known_iff : ∀ path, path ∈ Change.known told ↔ ∃ content, LastShown root past path content

section Run

variable {root : Path} {past : List FileTree} {source : DirectorySource} {told : List Change}

theorem remembers_ofRoot
    (root : Path) :
    (ofRoot root).Remembers root [] [] := by
  have hnothing : ∀ path content, ¬ LastShown root [] path content := by
    rintro path content ⟨read, ⟨front, back, hsplit, -⟩, -⟩
    exact List.append_ne_nil_of_right_ne_nil front (List.cons_ne_nil read back) hsplit.symm
  constructor
  · rfl
  · intro names hnames
    exact absurd hnames Std.ExtTreeMap.not_mem_empty
  · intro path content
    simp [hnothing, ofRoot, Scan.Holds]
  · intro path
    simp [hnothing, Change.known]

/-- A poll that is answered tells how the files differ from those that the source has, and the
source has them from then on. -/
theorem Remembers.poll_of_scan
    (hremembers : source.Remembers root past told)
    (hroot : root.fileName? ≠ some Scan.hiddenName)
    {tree : FileTree}
    (hnamed : tree.NamedBelow root)
    {scan : Scan}
    (hscan : Scan.ofTree tree root = .ok scan) :
    ∃ changes, source.poll tree = (.ok changes, ⟨root, scan⟩) ∧
      Tells (LastShown root past) (tree.Shows root) changes ∧
      Remembers ⟨root, scan⟩ root (past ++ [tree]) (told ++ changes) := by
  have hscannable : tree.Scannable root := (Scan.exists_ofTree_iff hroot).mp ⟨scan, hscan⟩
  have hbefore : source.seen.Holds = LastShown root past :=
    funext₂ fun path content => propext (hremembers.seen_iff path content)
  have hafter : scan.Holds = tree.Shows root :=
    funext₂ fun path content => propext (Scan.holds_ofTree_iff hroot hscan)
  have hscanned : scan.Named := Scan.named_ofTree hroot hnamed hscan
  have htells : Tells (LastShown root past) (tree.Shows root) (source.seen.changes scan) := by
    rw [← hbefore, ← hafter]
    exact Scan.tells_changes hremembers.named hscanned
  have hlast :
      ∀ path content,
        LastShown root (past ++ [tree]) path content ↔ tree.Shows root path content := by
    intro path content
    simp [LastShown, lastScanned_append_singleton_iff, hscannable]
  refine ⟨source.seen.changes scan, ?_, htells, rfl, hscanned, ?_, ?_⟩
  · rw [poll, hremembers.root_eq, hscan]
  · intro path content
    rw [hlast, hafter]
  · intro path
    rw [Change.known, List.foldl_append]
    simp only [hlast]
    exact htells.mem_follow_iff hremembers.known_iff path

/-- A poll that fails tells nothing, and the source has what it had. -/
theorem Remembers.poll_of_error
    (hremembers : source.Remembers root past told)
    (hroot : root.fileName? ≠ some Scan.hiddenName)
    {tree : FileTree} {cause : SourceError}
    (herror : Scan.ofTree tree root = .error cause) :
    source.poll tree = (.error cause, source) ∧
      source.Remembers root (past ++ [tree]) told := by
  have hscannable : ¬ tree.Scannable root := by
    rw [← Scan.exists_ofTree_iff hroot, herror]
    rintro ⟨scan, ⟨⟩⟩
  have hlast :
      ∀ path content,
        LastShown root (past ++ [tree]) path content ↔ LastShown root past path content := by
    intro path content
    simp [LastShown, lastScanned_append_singleton_iff, hscannable]
  refine ⟨?_, hremembers.root_eq, hremembers.named, ?_, ?_⟩
  · rw [poll, hremembers.root_eq, herror]
  · intro path content
    rw [hlast, hremembers.seen_iff]
  · intro path
    simp only [hlast, hremembers.known_iff]

/-- What a run keeps. -/
theorem remembers_after
    (hroot : root.fileName? ≠ some Scan.hiddenName)
    (hnamed : ∀ tree ∈ past, tree.NamedBelow root) :
    ((ofRoot root).after past).Remembers root past ((ofRoot root).told past) := by
  induction past using List.reverseRecOn with
  | nil =>
      exact remembers_ofRoot root
  | append_singleton past tree ih =>
      have hremembers := ih fun read hread => hnamed read (List.mem_append_left _ hread)
      rw [after_append_singleton, told_append_singleton]
      cases hscan : Scan.ofTree tree root with
      | ok scan =>
          obtain ⟨changes, hpoll, -, hkept⟩ :=
            hremembers.poll_of_scan hroot (hnamed tree (by simp)) hscan
          rw [hpoll]
          exact hkept
      | error cause =>
          obtain ⟨hpoll, hkept⟩ := hremembers.poll_of_error hroot hscan
          rw [hpoll]
          simpa [Except.toOption] using hkept

end Run

/-- A poll of a tree that can be scanned tells, once and in order, which files are gone, new or
different since the last tree that could be scanned.  A poll of any other tree fails, tells nothing
and leaves the source as it was.  So whoever follows all that was told knows, at every moment, just
the files of the last tree that could be scanned. -/
theorem poll_tells
    {root : Path}
    (hroot : root.fileName? ≠ some Scan.hiddenName)
    {past : List FileTree} {tree : FileTree}
    (hnamed : ∀ read ∈ past ++ [tree], read.NamedBelow root) :
    (tree.Scannable root →
      ∃ changes, (((ofRoot root).after past).poll tree).1 = .ok changes ∧
        Tells (LastShown root past) (tree.Shows root) changes) ∧
    (¬ tree.Scannable root →
      ∃ cause, ((ofRoot root).after past).poll tree = (.error cause, (ofRoot root).after past)) ∧
    ∀ path, path ∈ Change.known ((ofRoot root).told past) ↔
      ∃ content, LastShown root past path content := by
  have hremembers : ((ofRoot root).after past).Remembers root past ((ofRoot root).told past) :=
    remembers_after hroot fun read hread => hnamed read (List.mem_append_left _ hread)
  refine ⟨?_, ?_, hremembers.known_iff⟩
  · intro hscannable
    obtain ⟨scan, hscan⟩ := (Scan.exists_ofTree_iff hroot).mpr hscannable
    obtain ⟨changes, hpoll, htells, -⟩ :=
      hremembers.poll_of_scan hroot (hnamed tree (by simp)) hscan
    exact ⟨changes, congrArg Prod.fst hpoll, htells⟩
  · intro hscannable
    cases hscan : Scan.ofTree tree root with
    | ok scan => exact absurd ((Scan.exists_ofTree_iff hroot).mp ⟨scan, hscan⟩) hscannable
    | error cause => exact ⟨cause, (hremembers.poll_of_error hroot hscan).1⟩

end DirectorySource

namespace CompilerParts

/-- The working copy of the station, which is away for a poll before its file is moved. -/
theorem namedBelow_station :
    ∀ read ∈ [siteBefore, .empty (.ofText "work")] ++ [siteAfter],
      read.NamedBelow station.settings.repositoryDir := by
  have hnames :
      ∀ files ∈ siteHistory, ∀ item ∈ files,
        Scan.hiddenName ∉ item.1 ∧ ∀ name ∈ item.1, name.Ordinary := by
    decide +kernel
  have hlocate :
      ∀ files ∈ siteHistory,
        (site files).locate station.settings.repositoryDir = .ok siteLocation := by
    decide +kernel
  have hmissing :
      ((FileTree.empty (.ofText "work")).locate station.settings.repositoryDir).toOption =
        none := by
    decide +kernel
  have hsites :
      ∀ files ∈ siteHistory, (site files).NamedBelow station.settings.repositoryDir := by
    intro files hfiles
    exact (workingCopy_site (hlocate files hfiles) (hnames files hfiles)).ordinary
  intro read hread
  simp only [List.cons_append, List.nil_append, List.mem_cons, List.not_mem_nil, or_false] at hread
  rcases hread with rfl | rfl | rfl
  · exact hsites _ (by simp [siteHistory])
  · intro location names entry hfound
    rw [hfound] at hmissing
    cases hmissing
  · exact hsites _ (by simp [siteHistory])

theorem poll_tells_station :
    station.settings.repositoryDir.fileName? ≠ some Scan.hiddenName ∧
      Tells
        (LastShown station.settings.repositoryDir [siteBefore, .empty (.ofText "work")])
        (siteAfter.Shows station.settings.repositoryDir)
        [.deleted (.ofNames [.ofText "flowgraph", .ofText "A", .ofText "A.properties"]),
          .added (.ofNames [.ofText "flowgraph", .ofText "A", .ofText "A.props"]),
          .modified (.ofNames ferryFile)] := by
  have hroot : station.settings.repositoryDir.fileName? ≠ some Scan.hiddenName := by decide
  have hpoll :
      (((DirectorySource.ofRoot station.settings.repositoryDir).after
        [siteBefore, .empty (.ofText "work")]).poll siteAfter).1.toOption =
        some [.deleted (.ofNames [.ofText "flowgraph", .ofText "A", .ofText "A.properties"]),
          .added (.ofNames [.ofText "flowgraph", .ofText "A", .ofText "A.props"]),
          .modified (.ofNames ferryFile)] := by
    decide +kernel
  have hscan :
      (Scan.ofTree siteAfter station.settings.repositoryDir).toOption.isSome := by
    decide +kernel
  obtain ⟨scan, hscan⟩ := Option.isSome_iff_exists.mp hscan
  have hscannable : siteAfter.Scannable station.settings.repositoryDir :=
    (Scan.exists_ofTree_iff hroot).mp ⟨scan, toOption_eq_some_iff.mp hscan⟩
  obtain ⟨changes, hchanges, htells⟩ :=
    (DirectorySource.poll_tells hroot namedBelow_station).1 hscannable
  rw [hchanges] at hpoll
  cases hpoll
  exact ⟨hroot, htells⟩

end CompilerParts

end HopRouting
