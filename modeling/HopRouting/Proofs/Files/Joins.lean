import Mathlib.Data.List.Basic
import HopRouting.FileTree.Lookup
import HopRouting.Proofs.Files.Names

/-!
# Paths below a directory

A path is decided by its segments, and joining puts segments behind segments, but for the empty one
that a slash at the end of the base stands for.  So what is made of ordinary names below a directory
can be read off the directory and the names: its components, its steps, its file name, its parent.

**Results.**  `steps_join`, `components_join`, `fileName?_join`, `parent?_join`, and `join_join` for
names that are followed one after the other.
-/

namespace HopRouting

/-- Names that lead somewhere: there is one, and all of them are ordinary. -/
structure OrdinaryNames (names : List Name) : Prop where
  ne_nil : names ≠ []
  ordinary : ∀ name ∈ names, name.Ordinary

namespace OrdinaryNames

variable {names : List Name}

theorem singleton
    {name : Name}
    (hname : name.Ordinary) :
    OrdinaryNames [name] := by
  refine ⟨List.cons_ne_nil _ _, ?_⟩
  intro other hother
  rwa [List.mem_singleton.mp hother]

theorem concat
    {name : Name}
    (hnames : OrdinaryNames names)
    (hname : name.Ordinary) :
    OrdinaryNames (names ++ [name]) := by
  refine ⟨List.append_ne_nil_of_left_ne_nil hnames.ne_nil _, ?_⟩
  intro other hother
  rcases List.mem_append.mp hother with hother | hother
  · exact hnames.ordinary other hother
  · rwa [List.mem_singleton.mp hother]

theorem of_append_left
    {front back : List Name}
    (hnames : OrdinaryNames (front ++ back))
    (hfront : front ≠ []) :
    OrdinaryNames front :=
  ⟨hfront, fun name hname => hnames.ordinary name (List.mem_append_left _ hname)⟩

theorem of_append_right
    {front back : List Name}
    (hnames : OrdinaryNames (front ++ back))
    (hback : back ≠ []) :
    OrdinaryNames back :=
  ⟨hback, fun name hname => hnames.ordinary name (List.mem_append_right _ hname)⟩

end OrdinaryNames

namespace Path

section Segments

theorem ofNames_segments
    (path : Path) :
    ofNames path.segments = path := by
  rw [ofNames, segments, List.intercalate_splitOn]

theorem eq_of_segments_eq
    {path other : Path}
    (hsegments : path.segments = other.segments) :
    path = other := by
  rw [← ofNames_segments path, hsegments, ofNames_segments]

theorem segments_ofNames
    {names : List Name}
    (hnames : OrdinaryNames names) :
    (ofNames names).segments = names :=
  List.splitOn_intercalate Name.slash (fun name hname => (hnames.ordinary name hname).no_slash)
    hnames.ne_nil

theorem ofNames_singleton
    (name : Name) :
    ofNames [name] = ⟨name⟩ := by
  rw [ofNames, List.intercalate_singleton]

theorem filterMap_ofSegment?
    {names : List Name}
    (hnames : ∀ name ∈ names, name.Ordinary) :
    names.filterMap Component.ofSegment? = names.map Component.name := by
  rw [← List.filterMap_eq_map]
  apply List.filterMap_congr
  intro name hname
  exact Component.ofSegment?_of_ordinary (hnames name hname)

/-- A path of names means just these. -/
theorem components_ofNames
    {names : List Name}
    (hnames : OrdinaryNames names) :
    (ofNames names).components = names.map Component.name := by
  obtain ⟨first, rest, rfl⟩ := List.exists_cons_of_ne_nil hnames.ne_nil
  have hfirst : first.Ordinary := hnames.ordinary first List.mem_cons_self
  unfold components
  rw [segments_ofNames hnames]
  simp only [firstComponent?, hfirst.ne_nil, hfirst.ne_dot, if_false,
    Component.ofSegment?_of_ordinary hfirst, Option.toList_some, List.singleton_append,
    List.map_cons, List.cons.injEq, true_and]
  exact filterMap_ofSegment? fun name hname => hnames.ordinary name (List.mem_cons_of_mem _ hname)

theorem fileName?_ofNames
    {names : List Name}
    (hnames : OrdinaryNames names) :
    (ofNames names).fileName? = names.getLast? := by
  rw [fileName?, components_ofNames hnames, List.getLast?_map]
  cases names.getLast? with
  | none => rfl
  | some name => rfl

/-- An absolute path has nothing in front of its first slash. -/
theorem exists_segments_of_isAbsolute
    {path : Path}
    (habsolute : path.isAbsolute = true) :
    ∃ rest, path.segments = [] :: rest := by
  obtain ⟨bytes⟩ := path
  cases bytes with
  | nil =>
      simp [isAbsolute] at habsolute
  | cons byte rest =>
      have hbyte : byte = Name.slash := by simpa [isAbsolute] using habsolute
      refine ⟨rest.splitOn Name.slash, ?_⟩
      rw [segments, List.splitOn_cons_eq_if_modifyHead, hbyte, beq_self_eq_true, if_pos rfl]

/-- A path that ends in a slash has nothing behind its last slash. -/
theorem exists_segments_of_endsInSlash
    {path : Path}
    (hends : path.endsInSlash = true) :
    ∃ kept : List UInt8,
      path.bytes = kept ++ [Name.slash] ∧ path.segments = kept.splitOn Name.slash ++ [[]] := by
  have hlast : path.bytes.getLast? = some Name.slash := of_decide_eq_true hends
  obtain ⟨kept, hbytes⟩ := List.getLast?_eq_some_iff.mp hlast
  refine ⟨kept, hbytes, ?_⟩
  rw [segments, hbytes, List.splitOn_append_cons_self, List.splitOn_nil]

theorem isAbsolute_ofNames
    {names : List Name}
    (hnames : OrdinaryNames names) :
    (ofNames names).isAbsolute = false := by
  rw [Bool.eq_false_iff]
  intro habsolute
  obtain ⟨rest, hrest⟩ := exists_segments_of_isAbsolute habsolute
  rw [segments_ofNames hnames] at hrest
  exact (hnames.ordinary [] (hrest ▸ List.mem_cons_self)).ne_nil rfl

theorem endsInSlash_of_segments_append
    {path : Path} {front names : List Name}
    (hsegments : path.segments = front ++ names)
    (hnames : OrdinaryNames names) :
    path.endsInSlash = false := by
  rw [Bool.eq_false_iff]
  intro hends
  obtain ⟨kept, -, hkept⟩ := exists_segments_of_endsInSlash hends
  have hlast : names.getLast? = some [] := by
    rw [← List.getLast?_append_of_ne_nil front hnames.ne_nil, ← hsegments, hkept,
      List.getLast?_append_cons, List.getLast?_singleton]
  exact (hnames.ordinary [] (List.mem_of_getLast? hlast)).ne_nil rfl

/-- The segments of a path without the empty one that a slash at the end stands for. -/
def trunk (path : Path) : List (List UInt8) :=
  if path.endsInSlash then path.segments.dropLast else path.segments

theorem segments_eq_trunk
    (path : Path) :
    path.segments = path.trunk ∨ path.segments = path.trunk ++ [[]] := by
  unfold trunk
  split
  · next hends =>
    obtain ⟨kept, -, hkept⟩ := exists_segments_of_endsInSlash hends
    rw [hkept, List.dropLast_concat]
    exact Or.inr rfl
  · exact Or.inl rfl

theorem trunk_ne_nil
    (path : Path) :
    path.trunk ≠ [] := by
  unfold trunk
  split
  · next hends =>
    obtain ⟨kept, -, hkept⟩ := exists_segments_of_endsInSlash hends
    rw [hkept, List.dropLast_concat]
    exact List.splitOn_ne_nil _ _
  · exact List.splitOn_ne_nil _ _

end Segments

theorem exists_bytes_join
    (base : Path)
    {names : List Name}
    (hnames : OrdinaryNames names) :
    ∃ rest, (base.join (ofNames names)).bytes = base.bytes ++ rest := by
  unfold join
  rw [if_neg (by simp [isAbsolute_ofNames hnames])]
  split
  · exact ⟨_, rfl⟩
  · exact ⟨_, rfl⟩

section Join

variable {base : Path} (hbase : base.bytes ≠ [])

include hbase

theorem segments_join
    {path : Path}
    (hrelative : path.isAbsolute = false) :
    (base.join path).segments = base.trunk ++ path.segments := by
  unfold join trunk
  rw [if_neg (by simp [hrelative])]
  by_cases hends : base.endsInSlash = true
  · have hlast : base.bytes.getLast? = some Name.slash := of_decide_eq_true hends
    obtain ⟨kept, hbytes, hkept⟩ := exists_segments_of_endsInSlash hends
    rw [if_pos (Or.inr hlast), if_pos hends, hkept, List.dropLast_concat, segments, segments,
      hbytes, List.append_assoc, List.singleton_append, List.splitOn_append_cons_self]
  · have hlast : base.bytes.getLast? ≠ some Name.slash := by
      simpa [endsInSlash] using hends
    rw [if_neg (not_or.mpr ⟨hbase, hlast⟩), if_neg hends, segments, segments, segments,
      List.splitOn_append_cons_self]

/-- A relative path adds what its segments mean to the components of the directory it is read in. -/
theorem components_join_of_relative
    {path : Path}
    (hrelative : path.isAbsolute = false) :
    (base.join path).components =
      base.components ++ path.segments.filterMap Component.ofSegment? := by
  obtain ⟨first, rest, htrunk⟩ := List.exists_cons_of_ne_nil base.trunk_ne_nil
  have hsegments : base.segments = first :: rest ∨ base.segments = first :: (rest ++ [[]]) := by
    rw [← List.cons_append, ← htrunk]
    exact base.segments_eq_trunk
  have hfirst :
      ∀ others, base.segments = first :: others →
        firstComponent? first (rest ++ path.segments) = firstComponent? first others := by
    intro others hothers
    unfold firstComponent?
    by_cases hempty : first = []
    · have hrest : others ≠ [] := by
        rintro rfl
        apply hbase
        rw [← ofNames_segments base, hothers, hempty]
        rfl
      have hmore : rest ++ path.segments ≠ [] :=
        List.append_ne_nil_of_right_ne_nil _ (List.splitOn_ne_nil _ _)
      rw [if_pos hempty, if_pos hempty, if_neg hmore, if_neg hrest]
    · rw [if_neg hempty, if_neg hempty]
  unfold components
  rw [segments_join hbase hrelative, htrunk, List.cons_append]
  rcases hsegments with hsegments | hsegments
  · simp only [hsegments, hfirst _ hsegments, List.filterMap_append, List.append_assoc]
  · simp only [hsegments, hfirst _ hsegments, List.filterMap_append, List.append_assoc]
    rfl

variable {names : List Name} (hnames : OrdinaryNames names)

include hnames

theorem segments_join_ofNames :
    (base.join (ofNames names)).segments = base.trunk ++ names := by
  rw [segments_join hbase (isAbsolute_ofNames hnames), segments_ofNames hnames]

theorem endsInSlash_join :
    (base.join (ofNames names)).endsInSlash = false :=
  endsInSlash_of_segments_append (segments_join_ofNames hbase hnames) hnames

theorem trunk_join :
    (base.join (ofNames names)).trunk = base.trunk ++ names := by
  rw [trunk, endsInSlash_join hbase hnames, if_neg Bool.false_ne_true,
    segments_join_ofNames hbase hnames]

theorem isAbsolute_join :
    (base.join (ofNames names)).isAbsolute = base.isAbsolute := by
  obtain ⟨rest, hbytes⟩ := exists_bytes_join base hnames
  rw [isAbsolute, hbytes, List.head?_append_of_ne_nil _ hbase, isAbsolute]

theorem join_bytes_ne_nil :
    (base.join (ofNames names)).bytes ≠ [] := by
  obtain ⟨rest, hbytes⟩ := exists_bytes_join base hnames
  rw [hbytes]
  exact List.append_ne_nil_of_left_ne_nil hbase _

/-- Names can be followed one after the other. -/
theorem join_join
    {more : List Name}
    (hmore : OrdinaryNames more)
    (hboth : OrdinaryNames (names ++ more)) :
    (base.join (ofNames names)).join (ofNames more) = base.join (ofNames (names ++ more)) := by
  apply eq_of_segments_eq
  rw [segments_join_ofNames (join_bytes_ne_nil hbase hnames) hmore, trunk_join hbase hnames,
    segments_join_ofNames hbase hboth, List.append_assoc]

theorem steps_join :
    (base.join (ofNames names)).steps = base.steps ++ names := by
  have hkept : names.filter (· ≠ []) = names := by
    apply List.filter_eq_self.mpr
    intro name hname
    exact decide_eq_true (hnames.ordinary name hname).ne_nil
  rw [steps, steps, segments_join_ofNames hbase hnames, List.filter_append, hkept]
  rcases base.segments_eq_trunk with htrunk | htrunk
  · rw [htrunk]
  · simp [htrunk]

theorem walkSteps_join :
    (base.join (ofNames names)).walkSteps = base.steps ++ names := by
  rw [walkSteps, endsInSlash_join hbase hnames, if_neg Bool.false_ne_true,
    steps_join hbase hnames]

theorem check_of_check_join
    (hcheck : (base.join (ofNames names)).check = .ok ()) :
    base.check = .ok () := by
  unfold check at hcheck ⊢
  obtain ⟨rest, hbytes⟩ := exists_bytes_join base hnames
  have hsublist : base.bytes.Sublist (base.join (ofNames names)).bytes := by
    rw [hbytes]
    exact List.sublist_append_left _ _
  have hlength := hsublist.length_le
  split_ifs at hcheck with hnul hempty hlong
  have hnul' : base.bytes.contains 0 = false := by
    rw [Bool.eq_false_iff, ne_eq, List.contains_iff_mem]
    intro hmem
    exact hnul (List.contains_iff_mem.mpr (hsublist.subset hmem))
  rw [hnul', if_neg Bool.false_ne_true, if_neg hbase, if_neg (by omega)]

theorem components_join :
    (base.join (ofNames names)).components =
      base.components ++ names.map Component.name := by
  rw [components_join_of_relative hbase (isAbsolute_ofNames hnames), segments_ofNames hnames,
    filterMap_ofSegment? hnames.ordinary]

theorem fileName?_join :
    (base.join (ofNames names)).fileName? = names.getLast? := by
  rw [fileName?, components_join hbase hnames,
    List.getLast?_append_of_ne_nil _ (by simp [hnames.ne_nil]), List.getLast?_map]
  cases names.getLast? with
  | none => rfl
  | some name => rfl

/-- The parent of an entry of a directory below the base is that directory. -/
theorem parent?_join
    {name : Name}
    (hname : name.Ordinary) :
    (base.join (ofNames (names ++ [name]))).parent? = some (base.join (ofNames names)) := by
  have hkept : ∀ {other : Name}, other.Ordinary → isFiller other = false := by
    intro other hother
    simp [isFiller, hother.ne_nil, hother.ne_dot]
  have hboth : OrdinaryNames (names ++ [name]) := hnames.concat hname
  obtain ⟨first, rest, htrunk⟩ := List.exists_cons_of_ne_nil base.trunk_ne_nil
  obtain ⟨dirs, last, rfl⟩ := List.eq_nil_or_concat names |>.resolve_left hnames.ne_nil
  have hlast : last.Ordinary := hnames.ordinary last (by simp)
  have hsegments :
      (base.join (ofNames (dirs.concat last ++ [name]))).segments =
        first :: (rest ++ dirs ++ [last] ++ [name]) := by
    rw [segments_join_ofNames hbase hboth, htrunk]
    simp
  have hrest :
      (rest ++ dirs ++ [last] ++ [name]).reverse.dropWhile isFiller =
        name :: last :: (rest ++ dirs).reverse := by
    rw [List.reverse_concat, List.reverse_concat, List.dropWhile_cons, hkept hname,
      if_neg Bool.false_ne_true]
  have hbefore :
      ((last :: (rest ++ dirs).reverse).dropWhile isFiller).reverse = rest ++ dirs ++ [last] := by
    rw [List.dropWhile_cons, hkept hlast, if_neg Bool.false_ne_true, List.reverse_cons,
      List.reverse_reverse]
  have hparent :
      (base.join (ofNames (dirs.concat last ++ [name]))).parent? =
        some (ofNames (first :: (rest ++ dirs ++ [last]))) := by
    unfold parent?
    simp only [hsegments, hrest, hbefore]
    split
    · next hnone => simp at hnone
    · rfl
  rw [hparent, ← ofNames_segments (base.join _), segments_join_ofNames hbase hnames, htrunk]
  simp

end Join

end Path

end HopRouting
