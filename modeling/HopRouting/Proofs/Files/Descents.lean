import HopRouting.Proofs.Files.Walks

/-!
# Paths that only descend

What a path means is read off its segments: those that are empty or `.` say nothing, so a path can
be spelled in many ways.  `meaning` is what all spellings share, the components but for a `.` in
front.  A path that is not absolute and has no `..` means just names, one below the other.

**Results.**  Behind a directory such a path means what the directory means, and then its names
(`meaning_join`).  If nothing below the directory is a link, it leads to the place that the names
tell, or nowhere (`locate_join_of_descends`).
-/

namespace HopRouting

namespace Path

/-- The components of a path, but for a `.` that it begins with. -/
def meaning (path : Path) : List Component :=
  path.components.filter (· ≠ .here)

/-- The path leads down only: it does not start at the root directory, and never climbs. -/
def Descends (path : Path) : Prop :=
  Component.root ∉ path.components ∧ Component.up ∉ path.components

instance (path : Path) : Decidable path.Descends :=
  inferInstanceAs (Decidable (_ ∧ _))

section Meanings

theorem ofSegment?_cases
    (segment : List UInt8) :
    Component.ofSegment? segment = none ∨
      Component.ofSegment? segment = some .up ∨
      Component.ofSegment? segment = some (.name segment) := by
  unfold Component.ofSegment?
  split
  · exact Or.inl rfl
  · split
    · exact Or.inr (Or.inl rfl)
    · exact Or.inr (Or.inr rfl)

theorem filter_ofSegment?
    (segments : List (List UInt8)) :
    (segments.filterMap Component.ofSegment?).filter (· ≠ .here) =
      segments.filterMap Component.ofSegment? := by
  apply List.filter_eq_self.mpr
  intro component hcomponent
  obtain ⟨segment, -, hsegment⟩ := List.mem_filterMap.mp hcomponent
  rcases ofSegment?_cases segment with hnone | hup | hname
  · cases hnone.symm.trans hsegment
  · cases hup.symm.trans hsegment
    rfl
  · cases hname.symm.trans hsegment
    rfl

/-- A path is absolute if it has a slash, and nothing in front of it. -/
theorem isAbsolute_iff
    {path : Path} {first : List UInt8} {rest : List (List UInt8)}
    (hsegments : path.segments = first :: rest) :
    path.isAbsolute = true ↔ first = [] ∧ rest ≠ [] := by
  obtain ⟨bytes⟩ := path
  cases bytes with
  | nil =>
      cases hsegments
      simp [isAbsolute]
  | cons byte tail =>
      rw [segments, List.splitOn_cons_eq_if_modifyHead] at hsegments
      have hrest : tail.splitOn Name.slash ≠ [] := List.splitOn_ne_nil _ _
      split at hsegments
      · next hslash =>
        cases hsegments
        simp [isAbsolute, hrest, beq_iff_eq.mp hslash]
      · next hother =>
        obtain ⟨start, others, hsplit⟩ := List.exists_cons_of_ne_nil hrest
        rw [hsplit] at hsegments
        cases hsegments
        simpa [isAbsolute] using hother

/-- Segments tell the meaning of a path, but for a root directory in front. -/
theorem meaning_eq
    (path : Path) :
    path.meaning =
      (if path.isAbsolute then [.root] else []) ++
        path.segments.filterMap Component.ofSegment? := by
  obtain ⟨first, rest, hsegments⟩ :=
    List.exists_cons_of_ne_nil (List.splitOn_ne_nil Name.slash path.bytes)
  change path.segments = first :: rest at hsegments
  have habsolute := isAbsolute_iff hsegments
  have hkept := filter_ofSegment? rest
  unfold meaning components
  simp only [hsegments, List.filter_append, hkept]
  by_cases hfirst : first = []
  · subst hfirst
    by_cases hrest : rest = []
    · have hrelative : path.isAbsolute = false := by simp [Bool.eq_false_iff, habsolute, hrest]
      simp [firstComponent?, hrest, hrelative, Component.ofSegment?]
    · simp [firstComponent?, hrest, habsolute.mpr ⟨rfl, hrest⟩, Component.ofSegment?]
  · have hrelative : path.isAbsolute = false := by simp [Bool.eq_false_iff, habsolute, hfirst]
    by_cases hdot : first = [Name.dot]
    · simp [firstComponent?, hdot, hrelative, Component.ofSegment?]
    · have hlist :
          (Component.ofSegment? first).toList = [first].filterMap Component.ofSegment? := by
        rw [List.filterMap_cons]
        cases Component.ofSegment? first <;> rfl
      simp only [firstComponent?, hfirst, hdot, hrelative, if_false, hlist, filter_ofSegment?,
        Bool.false_eq_true, List.nil_append]
      rw [← List.filterMap_append, List.singleton_append]

theorem mem_meaning_iff
    {path : Path} {component : Component} :
    component ∈ path.meaning ↔ component ∈ path.components ∧ component ≠ .here := by
  simp [meaning]

theorem root_mem_components_iff
    {path : Path} :
    Component.root ∈ path.components ↔ path.isAbsolute = true := by
  have hmem : Component.root ∈ path.meaning ↔ Component.root ∈ path.components := by
    simp [mem_meaning_iff]
  rw [← hmem, meaning_eq]
  constructor
  · intro hroot
    rcases List.mem_append.mp hroot with hfront | hback
    · by_contra hrelative
      simp [hrelative] at hfront
    · obtain ⟨segment, -, hsegment⟩ := List.mem_filterMap.mp hback
      rcases ofSegment?_cases segment with hnone | hup | hname
      · cases hnone.symm.trans hsegment
      · cases hup.symm.trans hsegment
      · cases hname.symm.trans hsegment
  · intro habsolute
    simp [habsolute]

theorem Descends.isAbsolute
    {path : Path}
    (hdescends : path.Descends) :
    path.isAbsolute = false := by
  rw [Bool.eq_false_iff, ne_eq, ← root_mem_components_iff]
  exact hdescends.1

/-- A path that only descends means its names. -/
theorem Descends.meaning_eq
    {path : Path}
    (hdescends : path.Descends) :
    path.meaning = (path.components.filterMap Component.name?).map Component.name := by
  obtain ⟨hroot, hup⟩ := hdescends
  unfold meaning
  generalize path.components = components at hroot hup
  induction components with
  | nil => rfl
  | cons component rest ih =>
      rw [List.mem_cons, not_or] at hroot hup
      have hrest := ih hroot.2 hup.2
      cases component with
      | root => exact absurd rfl hroot.1
      | here =>
          rw [List.filter_cons_of_neg (by simp), List.filterMap_cons_none rfl]
          exact hrest
      | up => exact absurd rfl hup.1
      | name name =>
          have hname : Component.name? (.name name) = some name := rfl
          rw [List.filter_cons_of_pos (by simp), List.filterMap_cons_some hname, List.map_cons,
            hrest]

/-- What means nothing but names descends. -/
theorem descends_of_meaning_eq
    {path : Path} {names : List Name}
    (hmeaning : path.meaning = names.map Component.name) :
    path.Descends := by
  constructor
  · intro hroot
    have hmem : Component.root ∈ path.meaning := mem_meaning_iff.mpr ⟨hroot, by simp⟩
    simp [hmeaning] at hmem
  · intro hup
    have hmem : Component.up ∈ path.meaning := mem_meaning_iff.mpr ⟨hup, by simp⟩
    simp [hmeaning] at hmem

end Meanings

section Join

variable (base : Path) {path : Path} (hrelative : path.isAbsolute = false)

include hrelative

theorem join_of_bytes_eq_nil
    (hbase : base.bytes = []) :
    base.join path = path := by
  unfold join
  rw [if_neg (by simp [hrelative]), if_pos (Or.inl hbase), hbase, List.nil_append]

theorem isAbsolute_join_of_relative :
    (base.join path).isAbsolute = base.isAbsolute := by
  by_cases hbase : base.bytes = []
  · rw [join_of_bytes_eq_nil base hrelative hbase, hrelative, isAbsolute, hbase]
    rfl
  · unfold join isAbsolute
    rw [if_neg (by simpa [isAbsolute] using hrelative)]
    split
    · rw [List.head?_append_of_ne_nil _ hbase]
    · rw [List.head?_append_of_ne_nil _ hbase]

theorem filterMap_segments_join
    {α : Type} {f : List UInt8 → Option α}
    (hf : f [] = none) :
    (base.join path).segments.filterMap f =
      base.segments.filterMap f ++ path.segments.filterMap f := by
  by_cases hbase : base.bytes = []
  · rw [join_of_bytes_eq_nil base hrelative hbase, segments, segments, hbase, List.splitOn_nil,
      List.filterMap_cons_none hf, List.filterMap_nil, List.nil_append]
  · rw [segments_join hbase hrelative, List.filterMap_append]
    rcases base.segments_eq_trunk with htrunk | htrunk
    · rw [← htrunk]
    · rw [htrunk, List.filterMap_append, List.filterMap_cons_none hf, List.filterMap_nil,
        List.append_nil]

/-- A relative path adds its meaning to that of the directory it is read in. -/
theorem meaning_join :
    (base.join path).meaning = base.meaning ++ path.meaning := by
  rw [meaning_eq, meaning_eq base, meaning_eq path, isAbsolute_join_of_relative base hrelative,
    filterMap_segments_join base hrelative rfl, hrelative, List.append_assoc]
  rfl

theorem steps_join_of_relative :
    (base.join path).steps = base.steps ++ path.steps := by
  have hsteps : ∀ path : Path, path.steps = path.segments.filterMap (Option.guard (· ≠ [])) := by
    intro path
    rw [List.filterMap_eq_filter]
    rfl
  rw [hsteps, hsteps, hsteps, filterMap_segments_join base hrelative (by simp)]

theorem walkSteps_join_of_relative
    (hpath : path.bytes ≠ []) :
    (base.join path).walkSteps = base.steps ++ path.walkSteps := by
  have hends : (base.join path).endsInSlash = path.endsInSlash := by
    obtain ⟨front, hfront⟩ : ∃ front, (base.join path).bytes = front ++ path.bytes := by
      unfold join
      rw [if_neg (by simp [hrelative])]
      split
      · exact ⟨base.bytes, rfl⟩
      · exact ⟨base.bytes ++ [Name.slash], by simp⟩
    rw [endsInSlash, hfront, List.getLast?_append_of_ne_nil _ hpath, endsInSlash]
  rw [walkSteps, hends, steps_join_of_relative base hrelative, walkSteps]
  split
  · rw [List.append_assoc]
  · rfl

end Join

/-- An entry that the directory of a path can hold is one more component, also in no directory at
all. -/
theorem components_join_name
    (base : Path) {name : Name}
    (hname : name.Ordinary) :
    (base.join (ofNames [name])).components = base.components ++ [.name name] := by
  have hnames := OrdinaryNames.singleton hname
  by_cases hbase : base.bytes = []
  · rw [join_of_bytes_eq_nil base (isAbsolute_ofNames hnames) hbase, components_ofNames hnames,
      components, segments, hbase]
    rfl
  · exact components_join hbase hnames

/-- The steps of a path mean what its segments mean. -/
theorem filterMap_walkSteps
    (path : Path) :
    path.walkSteps.filterMap Component.ofSegment? =
      path.segments.filterMap Component.ofSegment? := by
  have hsteps :
      path.steps.filterMap Component.ofSegment? = path.segments.filterMap Component.ofSegment? := by
    unfold steps
    rw [List.filterMap_filter]
    apply List.filterMap_congr
    intro segment _
    by_cases hempty : segment = []
    · simp [hempty, Component.ofSegment?]
    · simp [hempty]
  unfold walkSteps
  split
  · rw [List.filterMap_append, hsteps]
    simp [Component.ofSegment?]
  · exact hsteps

/-- A path that only descends is made of its names, and of segments that say nothing. -/
theorem Descends.filterMap_walkSteps
    {path : Path}
    (hdescends : path.Descends) :
    path.walkSteps.filterMap Component.ofSegment? =
      (path.components.filterMap Component.name?).map Component.name := by
  rw [← hdescends.meaning_eq, path.meaning_eq, hdescends.isAbsolute, Path.filterMap_walkSteps]
  rfl

end Path

namespace FileTree

/-- From a place that no link lies below, a stride whose steps mean nothing but names goes straight
down by them. -/
theorem stride_of_descending
    {tree : FileTree} {location : Location}
    (hplain : tree.Plain location)
    {steps names : List Name}
    (hnames : steps.filterMap Component.ofSegment? = names.map Component.name) :
    ∃ result : Except FileError Location,
      tree.stride location steps = result.map Stride.arrived ∧
      ∀ final, result = .ok final → final = location ++ names := by
  induction steps generalizing location names with
  | nil =>
      obtain rfl : names = [] := List.map_eq_nil_iff.mp hnames.symm
      refine ⟨.ok location, rfl, ?_⟩
      rintro final ⟨⟩
      rw [List.append_nil]
  | cons step rest ih =>
      rcases Path.ofSegment?_cases step with hnone | hup | hname
      · rw [List.filterMap_cons_none hnone] at hnames
        by_cases hdirectory : tree.isDirectoryAt location = true
        · obtain ⟨result, hstride, hresult⟩ := ih hplain hnames
          refine ⟨result, ?_, hresult⟩
          simp [stride, hdirectory, hnone, hstride]
        · refine ⟨.error .notADirectory, ?_, by rintro final ⟨⟩⟩
          simp [stride, hdirectory]
          rfl
      · rw [List.filterMap_cons_some hup] at hnames
        obtain ⟨_, _, -, hname, -⟩ := List.map_eq_cons_iff.mp hnames.symm
        cases hname
      · rw [List.filterMap_cons_some hname] at hnames
        obtain ⟨first, others, rfl, hfirst, hothers⟩ := List.map_eq_cons_iff.mp hnames.symm
        obtain rfl : first = step := Component.name.inj hfirst
        rcases stride_cons_cases hplain hname rest with ⟨-, henter⟩ | ⟨-, cause, hfails⟩
        · obtain ⟨result, hstride, hresult⟩ := ih (hplain.append [first]) hothers.symm
          refine ⟨result, henter.trans hstride, ?_⟩
          intro final hfinal
          rw [hresult final hfinal, List.append_assoc, List.singleton_append]
        · exact ⟨.error cause, hfails, by rintro final ⟨⟩⟩

/-- Below a directory without links, a path that only descends leads to the place that its names
tell, if it leads anywhere. -/
theorem locate_join_of_descends
    {tree : FileTree} {base path : Path} {location final : Location}
    (hbase : tree.locate (base.join ⟨[Name.dot]⟩) = .ok location)
    (hplain : tree.Plain location)
    (hpath : path.bytes ≠ [])
    (hdescends : path.Descends)
    (hfinal : tree.locate (base.join path) = .ok final) :
    final = location ++ path.components.filterMap Component.name? := by
  have hrelative := hdescends.isAbsolute
  have hdot : (⟨[Name.dot]⟩ : Path).isAbsolute = false := rfl
  have hstart :
      (base.join path).start tree.workingDirectory =
        (base.join ⟨[Name.dot]⟩).start tree.workingDirectory := by
    rw [Path.start, Path.start, Path.isAbsolute_join_of_relative base hrelative,
      Path.isAbsolute_join_of_relative base hdot]
  obtain ⟨result, hstride, hresult⟩ :=
    stride_of_descending hplain hdescends.filterMap_walkSteps
  obtain ⟨-, -, hwalk⟩ := bind_eq_ok_iff.mp hbase
  rw [Path.walkSteps_join_of_relative base hdot (List.cons_ne_nil _ _)] at hwalk
  have hjoined := walk_append tree.idle_dot hstride hwalk
  obtain ⟨-, -, hend⟩ := bind_eq_ok_iff.mp hfinal
  rw [Path.walkSteps_join_of_relative base hrelative hpath, hstart] at hend
  exact hresult final (hjoined.symm.trans hend)

end FileTree

end HopRouting
