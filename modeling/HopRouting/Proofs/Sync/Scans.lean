import HopRouting.Proofs.Files.Walks
import HopRouting.Sync.Source

/-!
# Scans of working copies

A working copy is a directory with nothing but regular files and directories below it, none of them
hidden.  A scan of it holds just its files (`getElem?_ofTree`), and what is to be done to get from
one scan to the next is told by the files that are gone and those that are new or different.
-/

namespace HopRouting

theorem getElem?_ofList_eq_some_iff
    {α β : Type} [DecidableEq α] {cmp : α → α → Ordering} [Std.TransCmp cmp] [Std.LawfulEqCmp cmp]
    {items : List (α × β)}
    (hdistinct : items.Pairwise fun item other => ¬ cmp item.1 other.1 = .eq)
    {key : α} {value : β} :
    (Std.ExtTreeMap.ofList items cmp)[key]? = some value ↔ (key, value) ∈ items := by
  have hmem :
      ∀ held, (key, held) ∈ items → (Std.ExtTreeMap.ofList items cmp)[key]? = some held := by
    intro held hheld
    exact Std.ExtTreeMap.getElem?_ofList_of_mem Std.ReflCmp.compare_self hdistinct hheld
  constructor
  · intro hvalue
    by_cases hkey : key ∈ items.map Prod.fst
    · obtain ⟨⟨_, held⟩, hheld, rfl⟩ := List.mem_map.mp hkey
      rw [hmem held hheld] at hvalue
      rwa [← Option.some.inj hvalue]
    · have hnone : (Std.ExtTreeMap.ofList items cmp)[key]? = none := by
        apply Std.ExtTreeMap.getElem?_ofList_of_contains_eq_false
        rwa [Bool.eq_false_iff, ne_eq, List.contains_iff_mem]
      rw [hnone] at hvalue
      cases hvalue
  · exact hmem value

namespace FileTree

/-- The file with the content lies under the names, below the directory that a path leads to. -/
def HasFile (tree : FileTree) (root : Path) (names : Location) (content : List UInt8) : Prop :=
  ∃ location, tree.locate root = .ok location ∧
    tree.entry? (location ++ names) = some (.file content)

/-- The directory that a path leads to has nothing but regular files and directories below it, and
none of them is called like what is never looked at. -/
structure WorkingCopy (tree : FileTree) (root : Path) : Prop where
  plain : ∀ location, tree.locate root = .ok location → tree.Plain location
  ordinary :
    ∀ location names entry, tree.locate root = .ok location →
      tree.entry? (location ++ names) = some entry → ∀ name ∈ names, name.Ordinary
  visible :
    ∀ location names entry, tree.locate root = .ok location →
      tree.entry? (location ++ names) = some entry → Scan.hiddenName ∉ names

/-- The directory that a path leads to has nothing but regular files and directories below it. -/
structure Regular (tree : FileTree) (root : Path) : Prop where
  plain : ∀ location, tree.locate root = .ok location → tree.Plain location
  ordinary :
    ∀ location names entry, tree.locate root = .ok location →
      tree.entry? (location ++ names) = some entry → ∀ name ∈ names, name.Ordinary

theorem WorkingCopy.regular
    {tree : FileTree} {root : Path}
    (hcopy : tree.WorkingCopy root) :
    tree.Regular root :=
  ⟨hcopy.plain, hcopy.ordinary⟩

section Below

variable {tree : FileTree} {location : Location}

/-- What is said of an entry that is seen from a location. -/
theorem append_eq_of_seen
    {key names : Location} {held entry : Entry}
    (hseen :
      (match location.isPrefixOf? key with
        | some [] => none
        | some names => some (names, held)
        | none => none) = some (names, entry)) :
    names ≠ [] ∧ location ++ names = key ∧ held = entry := by
  split at hseen
  · cases hseen
  · next found hne hstarts =>
    cases hseen
    exact ⟨hne, List.isPrefixOf?_eq_some_iff_append_eq.mp hstarts, rfl⟩
  · cases hseen

theorem mem_below_iff
    {names : Location} {entry : Entry} :
    (names, entry) ∈ tree.below location ↔
      names ≠ [] ∧ tree.entry? (location ++ names) = some entry := by
  unfold below
  rw [List.mem_filterMap]
  constructor
  · rintro ⟨⟨key, held⟩, hheld, hseen⟩
    obtain ⟨hne, rfl, rfl⟩ := append_eq_of_seen hseen
    refine ⟨hne, ?_⟩
    rw [entry?_of_ne_nil (List.append_ne_nil_of_right_ne_nil _ hne)]
    exact Std.ExtTreeMap.mem_toList_iff_getElem?_eq_some.mp hheld
  · rintro ⟨hne, hentry⟩
    rw [entry?_of_ne_nil (List.append_ne_nil_of_right_ne_nil _ hne)] at hentry
    refine ⟨(location ++ names, entry),
      Std.ExtTreeMap.mem_toList_iff_getElem?_eq_some.mpr hentry, ?_⟩
    have hstarts : location.isPrefixOf? (location ++ names) = some names :=
      List.isPrefixOf?_eq_some_iff_append_eq.mpr rfl
    simp only [hstarts]

theorem distinct_below
    (tree : FileTree)
    (location : Location) :
    (tree.below location).Pairwise fun item other => ¬ compare item.1 other.1 = .eq := by
  unfold below
  refine List.Pairwise.filterMap _ ?_ tree.entries.distinct_keys_toList
  rintro ⟨key, held⟩ ⟨key', held'⟩ hdistinct ⟨names, entry⟩ hseen ⟨names', entry'⟩ hseen'
  obtain ⟨-, rfl, -⟩ := append_eq_of_seen hseen
  obtain ⟨-, rfl, -⟩ := append_eq_of_seen hseen'
  rw [Std.LawfulEqOrd.compare_eq_iff_eq] at hdistinct ⊢
  rintro rfl
  exact hdistinct rfl

end Below

end FileTree

namespace Scan

variable {tree : FileTree} {root : Path} {scan : Scan}

/-- A scan that is answered was made of a directory, and holds the visible files below it. -/
theorem exists_location_of_ofTree
    (hroot : root.fileName? ≠ some hiddenName)
    (hscan : ofTree tree root = .ok scan) :
    ∃ location, tree.locate root = .ok location ∧
      tree.isDirectoryAt location = true ∧
      scan = .ofList ((tree.below location).filterMap fun (names, entry) =>
        visibleFile? names entry) := by
  unfold ofTree at hscan
  split at hscan
  · cases hscan
  · next location hlocate =>
    split at hscan
    · cases hscan
    · next hdirectory =>
      extract_lets entries at hscan
      split at hscan
      · cases hscan
      · exact ⟨location, hlocate, by simpa using hdirectory, (Except.ok.inj hscan).symm⟩

/-- A directory that is never looked at has no files. -/
theorem ne_hiddenName_of_mem_ofTree
    (hscan : ofTree tree root = .ok scan)
    {names : Location}
    (hnames : names ∈ scan) :
    root.fileName? ≠ some hiddenName := by
  intro hhidden
  unfold ofTree at hscan
  split at hscan
  · cases hscan
  · split at hscan
    · cases hscan
    · cases hscan
      exact Std.ExtTreeMap.not_mem_empty hnames

theorem visibleFile?_eq_some_iff
    {item : Location × Entry} {names : Location} {content : List UInt8} :
    visibleFile? item.1 item.2 = some (names, content) ↔
      item = (names, .file content) ∧ hiddenName ∉ names := by
  obtain ⟨names', entry⟩ := item
  constructor
  · intro hfile
    unfold visibleFile? at hfile
    split at hfile
    · next held hentry =>
      split at hfile
      · cases hfile
      · next hvisible =>
        cases hfile
        exact ⟨Prod.ext rfl hentry, hvisible⟩
    · cases hfile
  · rintro ⟨hitem, hvisible⟩
    cases hitem
    simp only [visibleFile?]
    rw [if_neg hvisible]

/-- A scan holds exactly the files that are not hidden. -/
theorem getElem?_ofTree_iff
    (hroot : root.fileName? ≠ some hiddenName)
    (hscan : ofTree tree root = .ok scan)
    {names : Location} {content : List UInt8} :
    scan[names]? = some content ↔ hiddenName ∉ names ∧ tree.HasFile root names content := by
  obtain ⟨location, hlocate, hdirectory, rfl⟩ := exists_location_of_ofTree hroot hscan
  have hdistinct :
      ((tree.below location).filterMap fun (names, entry) =>
        visibleFile? names entry).Pairwise fun item other => ¬ compare item.1 other.1 = .eq := by
    refine List.Pairwise.filterMap _ ?_ (tree.distinct_below location)
    rintro item other hne ⟨names, content⟩ hfile ⟨names', content'⟩ hfile'
    rw [(visibleFile?_eq_some_iff.mp hfile).1, (visibleFile?_eq_some_iff.mp hfile').1] at hne
    exact hne
  rw [getElem?_ofList_eq_some_iff hdistinct, List.mem_filterMap]
  constructor
  · rintro ⟨item, hitem, hfile⟩
    obtain ⟨rfl, hvisible⟩ := visibleFile?_eq_some_iff.mp hfile
    exact ⟨hvisible, location, hlocate, (FileTree.mem_below_iff.mp hitem).2⟩
  · rintro ⟨hvisible, found, hfound, hentry⟩
    cases hlocate.symm.trans hfound
    have hne : names ≠ [] := by
      rintro rfl
      rw [List.append_nil] at hentry
      simp [FileTree.isDirectoryAt, hentry] at hdirectory
    exact ⟨(names, .file content), FileTree.mem_below_iff.mpr ⟨hne, hentry⟩,
      visibleFile?_eq_some_iff.mpr ⟨rfl, hvisible⟩⟩

/-- A scan holds exactly the files of the working copy. -/
theorem getElem?_ofTree
    (hroot : root.fileName? ≠ some hiddenName)
    (hcopy : tree.WorkingCopy root)
    (hscan : ofTree tree root = .ok scan)
    {names : Location} {content : List UInt8} :
    scan[names]? = some content ↔ tree.HasFile root names content := by
  rw [getElem?_ofTree_iff hroot hscan]
  apply and_iff_right_of_imp
  rintro ⟨location, hlocate, hentry⟩
  exact hcopy.visible location names _ hlocate hentry

theorem mem_iff_exists
    {names : Location} :
    names ∈ scan ↔ ∃ content, scan[names]? = some content := by
  rw [Std.ExtTreeMap.mem_iff_isSome_getElem?, Option.isSome_iff_exists]

theorem mem_ofTree_iff
    (hroot : root.fileName? ≠ some hiddenName)
    (hcopy : tree.WorkingCopy root)
    (hscan : ofTree tree root = .ok scan)
    {names : Location} :
    names ∈ scan ↔ ∃ content, tree.HasFile root names content := by
  rw [mem_iff_exists]
  exact exists_congr fun content => getElem?_ofTree hroot hcopy hscan

section Changes

variable (before after : Scan)

/-- The files that are gone. -/
def gone : List Location :=
  before.keys.filter fun names => !after.contains names

/-- The files that are new or different. -/
def touched : List Location :=
  after.toList.filterMap fun (names, content) =>
    if before[names]? = some content then none else some names

/-- What is told about a file that is new or different. -/
def update (names : Location) : Change :=
  if before.contains names then .modified (.ofNames names) else .added (.ofNames names)

theorem mem_gone_iff
    {names : Location} :
    names ∈ gone before after ↔ names ∈ before ∧ after[names]? = none := by
  rw [gone, List.mem_filter, Std.ExtTreeMap.mem_keys, Bool.not_eq_true',
    Std.ExtTreeMap.contains_eq_isSome_getElem?, Option.isSome_eq_false_iff,
    Option.isNone_iff_eq_none]

theorem mem_touched_iff
    {names : Location} :
    names ∈ touched before after ↔
      ∃ content, after[names]? = some content ∧ before[names]? ≠ some content := by
  rw [touched, List.mem_filterMap]
  constructor
  · rintro ⟨⟨found, content⟩, hheld, hnames⟩
    simp only at hnames
    split at hnames
    · cases hnames
    · next hdifferent =>
      cases hnames
      exact ⟨content, Std.ExtTreeMap.mem_toList_iff_getElem?_eq_some.mp hheld, hdifferent⟩
  · rintro ⟨content, hheld, hdifferent⟩
    refine ⟨(names, content), Std.ExtTreeMap.mem_toList_iff_getElem?_eq_some.mpr hheld, ?_⟩
    simp only
    rw [if_neg hdifferent]

/-- What is gone is told first; then what is new or different. -/
theorem changes_eq :
    before.changes after =
      (gone before after).map (fun names => .deleted (.ofNames names)) ++
        (touched before after).map (update before) := by
  unfold changes
  extract_lets deleted updated
  have hupdated : updated = (touched before after).map (update before) := by
    unfold touched
    rw [List.map_filterMap]
    apply List.filterMap_congr
    rintro ⟨names, content⟩ -
    cases hbefore : before[names]? with
    | none =>
        have habsent : before.contains names = false := by
          rw [Std.ExtTreeMap.contains_eq_isSome_getElem?, hbefore, Option.isSome_none]
        simp [hbefore, update, habsent]
    | some old =>
        have hpresent : before.contains names = true := by
          rw [Std.ExtTreeMap.contains_eq_isSome_getElem?, hbefore, Option.isSome_some]
        by_cases hsame : old = content
        · simp [hbefore, hsame]
        · simp [hbefore, hsame, update, hpresent]
  rw [hupdated]
  rfl

/-- What is gone is forgotten first; then what is new or different is taken in. -/
theorem operations_changes :
    (before.changes after).flatMap Change.operations =
      (gone before after).map (fun names => .remove (.ofNames names)) ++
        (touched before after).map (fun names => .add (.ofNames names)) := by
  have htakesIn : ∀ names, (update before names).operations = [.add (.ofNames names)] := by
    intro names
    unfold update
    split
    · rfl
    · rfl
  rw [changes_eq, List.flatMap_append, List.flatMap_map, List.flatMap_map]
  simp only [htakesIn, ← List.map_eq_flatMap]
  congr 1
  exact List.map_eq_flatMap.symm

end Changes

end Scan

end HopRouting
