import HopRouting.Proofs.Files.Descents

/-!
# Paths that begin alike

A path begins with another one if its components do, however the two are spelled.

**Parents.**  A path with a file name has a parent, and means what the parent means and then its
name (`exists_parent_of_fileName?`).

**Joins.**  A component that is written behind a path adds itself to what the path means
(`components_join_component`).

**Beginnings.**  A path that begins with another one starts where that does, and goes on from where
its steps lead (`filterMap_walkSteps_of_approached`).
-/

namespace HopRouting

namespace Path

section Components

/-- The bytes of a path are those of its segments, but for the slashes between them. -/
theorem mem_bytes_iff
    {path : Path} {byte : UInt8}
    (hbyte : byte ≠ Name.slash) :
    byte ∈ path.bytes ↔ ∃ segment ∈ path.segments, byte ∈ segment := by
  have hjoined :
      ∀ segments : List (List UInt8),
        byte ∈ [Name.slash].intercalate segments ↔ ∃ segment ∈ segments, byte ∈ segment := by
    intro segments
    induction segments with
    | nil =>
        simp
    | cons first rest ih =>
        by_cases hrest : rest = []
        · simp [hrest]
        · rw [List.intercalate_cons_of_ne_nil hrest, List.mem_append, List.mem_append, ih]
          simp [hbyte]
  have hbytes : path.bytes = [Name.slash].intercalate path.segments :=
    congrArg Path.bytes (ofNames_segments path).symm
  rw [hbytes]
  exact hjoined path.segments

/-- What a path means, after a `.` that it may begin with. -/
theorem components_eq
    (path : Path) :
    path.components =
      (if path.segments.head? = some [Name.dot] then [.here] else []) ++ path.meaning := by
  unfold meaning components
  cases path.segments with
  | nil =>
      rfl
  | cons first rest =>
      simp only [List.head?_cons, Option.some.injEq, List.filter_append, filter_ofSegment?]
      unfold firstComponent?
      by_cases hempty : first = []
      · by_cases hrest : rest = []
        · simp [hempty, hrest]
        · simp [hempty, hrest]
      · by_cases hdot : first = [Name.dot]
        · simp [hdot]
        · rw [if_neg hempty, if_neg hdot, if_neg hdot, List.nil_append]
          rcases ofSegment?_cases first with hnone | hup | hname
          · simp [hnone]
          · simp [hup]
          · simp [hname]

theorem components_eq_nil_iff
    {path : Path} :
    path.components = [] ↔ path.bytes = [] := by
  constructor
  · intro hnone
    rw [← ofNames_segments path]
    unfold components at hnone
    cases hsegments : path.segments with
    | nil =>
        rfl
    | cons first rest =>
        simp only [hsegments, List.append_eq_nil_iff, Option.toList_eq_nil_iff] at hnone
        obtain ⟨hfirst, -⟩ := hnone
        unfold firstComponent? at hfirst
        split_ifs at hfirst with hempty hrest hdot
        · rw [hempty, hrest]
          rfl
        · unfold Component.ofSegment? at hfirst
          rw [if_neg (not_or.mpr ⟨hempty, hdot⟩)] at hfirst
          split at hfirst
          · cases hfirst
          · cases hfirst
  · intro hempty
    have hsegments : path.segments = [[]] := by rw [segments, hempty, List.splitOn_nil]
    simp [components, hsegments, firstComponent?]

end Components

section Continued

/-- Only the first component of a path can be a root directory or a `.`. -/
theorem up_or_name_of_components_eq
    {path : Path} {front back : List Component} {component : Component}
    (hcomponents : path.components = front ++ component :: back)
    (hfront : front ≠ []) :
    component = .up ∨ ∃ name : Name, name.Ordinary ∧ component = .name name := by
  have hmoves : component ∈ path.segments.filterMap Component.ofSegment? := by
    obtain ⟨lead, rest, rfl⟩ := List.exists_cons_of_ne_nil hfront
    have hsplit := path.components_eq
    rw [hcomponents, meaning_eq] at hsplit
    have hmem : component ∈ rest ++ component :: back := by simp
    split_ifs at hsplit with hdot habsolute
    · obtain ⟨others, hothers⟩ := exists_segments_of_isAbsolute habsolute
      rw [hothers] at hdot
      cases hdot
    · rw [List.singleton_append, List.nil_append, List.cons_append] at hsplit
      exact (List.cons.inj hsplit).2 ▸ hmem
    · rw [List.nil_append, List.singleton_append, List.cons_append] at hsplit
      exact (List.cons.inj hsplit).2 ▸ hmem
    · rw [List.nil_append, List.nil_append] at hsplit
      rw [← hsplit]
      exact List.mem_cons_of_mem _ hmem
  obtain ⟨segment, -, hsegment⟩ := List.mem_filterMap.mp hmoves
  rcases ofSegment?_cases segment with hnone | hup | hname
  · cases hnone.symm.trans hsegment
  · exact Or.inl (Option.some.inj (hsegment.symm.trans hup))
  · obtain rfl : component = .name segment := Option.some.inj (hsegment.symm.trans hname)
    refine Or.inr ⟨segment, ?_, rfl⟩
    apply @ordinary_of_mem_components path
    rw [hcomponents]
    simp

/-- A component by itself is a path that means just it. -/
theorem components_component
    {component : Component}
    (hname : ∀ name : Name, component = .name name → name.Ordinary) :
    (⟨component.bytes⟩ : Path).components = [component] := by
  cases component with
  | root => decide
  | here => decide
  | up => decide
  | name name =>
      rw [Component.bytes, ← ofNames_singleton,
        components_ofNames (.singleton (hname name rfl))]
      rfl

/-- A component that is written behind a path adds itself to what the path means. -/
theorem components_join_component
    {base path : Path} {component : Component} {back : List Component}
    (hcomponents : path.components = base.components ++ component :: back) :
    (base.join ⟨component.bytes⟩).components = base.components ++ [component] := by
  have hname : ∀ name : Name, component = .name name → name.Ordinary := by
    rintro name rfl
    apply @ordinary_of_mem_components path
    rw [hcomponents]
    simp
  have halone := components_component hname
  by_cases hbase : base.bytes = []
  · have hnone : base.components = [] := components_eq_nil_iff.mpr hbase
    have hjoin : base.join ⟨component.bytes⟩ = ⟨component.bytes⟩ := by
      unfold join
      rw [hbase]
      simp
    rw [hjoin, hnone, halone, List.nil_append]
  · have hsome : base.components ≠ [] := fun hnone => hbase (components_eq_nil_iff.mp hnone)
    have hrelative : (⟨component.bytes⟩ : Path).isAbsolute = false := by
      rw [Bool.eq_false_iff, ne_eq, ← root_mem_components_iff, halone, List.mem_singleton]
      rintro rfl
      rcases up_or_name_of_components_eq hcomponents hsome with hup | ⟨name, -, hother⟩
      · cases hup
      · cases hother
    have hmeaning : (⟨component.bytes⟩ : Path).meaning = [component] := by
      rw [meaning, halone]
      rcases up_or_name_of_components_eq hcomponents hsome with rfl | ⟨name, -, rfl⟩
      · rfl
      · rfl
    have hhead :
        (base.join ⟨component.bytes⟩).segments.head? = base.segments.head? := by
      obtain ⟨first, rest, htrunk⟩ := List.exists_cons_of_ne_nil base.trunk_ne_nil
      rw [segments_join hbase hrelative]
      rcases base.segments_eq_trunk with hsegments | hsegments
      · rw [hsegments, htrunk]
        rfl
      · rw [hsegments, htrunk]
        rfl
    rw [components_eq, components_eq base, hhead, meaning_join base hrelative, hmeaning,
      List.append_assoc]

end Continued

/-- Fillers at the end of segments can be left out. -/
theorem filterMap_trimmed
    (segments : List (List UInt8)) :
    segments.filterMap Component.ofSegment? =
      (segments.reverse.dropWhile isFiller).reverse.filterMap Component.ofSegment? := by
  have hidle :
      (segments.reverse.takeWhile isFiller).filterMap Component.ofSegment? = [] := by
    apply List.filterMap_eq_nil_iff.mpr
    intro segment hsegment
    have hfiller := List.all_eq_true.mp List.all_takeWhile segment hsegment
    simp only [isFiller, decide_eq_true_eq] at hfiller
    rw [Component.ofSegment?, if_pos hfiller]
  rw [List.filterMap_reverse, ← List.nil_append (List.filterMap _ (segments.reverse.dropWhile _)),
    ← hidle, ← List.filterMap_append, List.takeWhile_append_dropWhile, List.filterMap_reverse,
    List.reverse_reverse]

/-- The last segment that is no filler means something, and those behind it do not. -/
theorem exists_last_component
    {segments before : List (List UInt8)} {segment : List UInt8}
    (hkept : segments.reverse.dropWhile isFiller = segment :: before) :
    ∃ component,
      segments.filterMap Component.ofSegment? =
        (before.dropWhile isFiller).reverse.filterMap Component.ofSegment? ++ [component] := by
  have hfiller : isFiller segment = false := by
    simpa [hkept] using List.head?_dropWhile_not isFiller segments.reverse
  rw [isFiller, decide_eq_false_iff_not] at hfiller
  obtain ⟨component, hcomponent⟩ : ∃ component, Component.ofSegment? segment = some component := by
    rcases ofSegment?_cases segment with hnone | hup | hname
    · rw [Component.ofSegment?, if_neg hfiller] at hnone
      split at hnone
      · cases hnone
      · cases hnone
    · exact ⟨_, hup⟩
    · exact ⟨_, hname⟩
  refine ⟨component, ?_⟩
  have hbefore := filterMap_trimmed before.reverse
  rw [List.reverse_reverse] at hbefore
  rw [filterMap_trimmed segments, hkept, List.reverse_cons, List.filterMap_append, hbefore,
    List.filterMap_cons_some hcomponent, List.filterMap_nil]

/-- Whether anything follows the first segment only matters if that is empty. -/
theorem firstComponent?_congr
    {first : List UInt8} {rest rest' : List (List UInt8)}
    (hrest : first = [] → (rest = [] ↔ rest' = [])) :
    firstComponent? first rest = firstComponent? first rest' := by
  unfold firstComponent?
  by_cases hfirst : first = []
  · simp only [if_pos hfirst, hrest hfirst]
  · rw [if_neg hfirst, if_neg hfirst]

theorem components_of_segments
    {path : Path} {first : List UInt8} {rest : List (List UInt8)}
    (hsegments : path.segments = first :: rest) :
    path.components =
      (firstComponent? first rest).toList ++ rest.filterMap Component.ofSegment? := by
  unfold components
  rw [hsegments]

section Leading

variable {first : List UInt8} {rest : List (List UInt8)} (hrest : rest ≠ [])

include hrest

/-- What the first of several segments means by itself. -/
theorem components_first
    (hslash : Name.slash ∉ first) :
    (if first = [] then ⟨[Name.slash]⟩ else ⟨first⟩ : Path).components =
      (firstComponent? first rest).toList := by
  by_cases hfirst : first = []
  · rw [if_pos hfirst, firstComponent?, if_pos hfirst, if_neg hrest]
    decide
  · have hsegments : (⟨first⟩ : Path).segments = [first] := by
      rw [segments, List.splitOn_eq_singleton hslash]
    rw [if_neg hfirst, components_of_segments hsegments, List.filterMap_nil, List.append_nil,
      firstComponent?_congr fun hempty => absurd hempty hfirst]

/-- What the first segments of several mean by themselves. -/
theorem components_ofNames_cons
    {kept : List (List UInt8)}
    (hkept : kept ≠ [])
    (hslash : ∀ segment ∈ first :: kept, Name.slash ∉ segment) :
    (ofNames (first :: kept)).components =
      (firstComponent? first rest).toList ++ kept.filterMap Component.ofSegment? := by
  have hsegments : (ofNames (first :: kept)).segments = first :: kept :=
    List.splitOn_intercalate Name.slash hslash (List.cons_ne_nil _ _)
  rw [components_of_segments hsegments,
    firstComponent?_congr fun _ => iff_of_false hkept hrest]

end Leading

section Parent

variable {path : Path} {first : List UInt8} {rest : List (List UInt8)} {name : Name}
variable (hsegments : path.segments = first :: rest)
variable (hlast : path.components.getLast? = some (.name name))

include hsegments hlast

/-- Where nothing behind the first segment means anything, that is the name. -/
theorem exists_parent_of_first
    (hfillers : rest.reverse.dropWhile isFiller = []) :
    ∃ directory,
      path.parent? = some directory ∧
      path.components = directory.components ++ [.name name] := by
  rw [components_of_segments hsegments, filterMap_trimmed rest, hfillers, List.reverse_nil,
    List.filterMap_nil, List.append_nil] at hlast ⊢
  have hfirst : firstComponent? first rest = some (.name name) := by
    cases hcase : firstComponent? first rest with
    | none =>
        rw [hcase] at hlast
        cases hlast
    | some component =>
        rw [hcase] at hlast
        exact hlast
  have hne : first ≠ [] := by
    rintro rfl
    unfold firstComponent? at hfirst
    rw [if_pos rfl] at hfirst
    split at hfirst
    · cases hfirst
    · cases hfirst
  refine ⟨⟨[]⟩, ?_, ?_⟩
  · unfold parent?
    simp only [hsegments, hfillers, if_neg hne]
  · rw [hfirst, components_eq_nil_iff.mpr rfl]
    rfl

/-- Otherwise the name is the last segment that means something, and those before it are left. -/
theorem exists_parent_of_rest
    {segment : List UInt8} {before : List (List UInt8)}
    (hkept : rest.reverse.dropWhile isFiller = segment :: before) :
    ∃ directory,
      path.parent? = some directory ∧
      path.components = directory.components ++ [.name name] := by
  have hslash : ∀ other ∈ first :: rest, Name.slash ∉ other := by
    intro other hother
    rw [← hsegments] at hother
    exact Text.not_mem_of_mem_splitOn hother
  have hrest : rest ≠ [] := by
    rintro rfl
    cases hkept
  have hfront : (before.dropWhile isFiller).reverse ⊆ rest := by
    intro other hother
    have hbefore := (List.dropWhile_sublist isFiller).subset (List.mem_reverse.mp hother)
    have hmem : other ∈ rest.reverse.dropWhile isFiller := by
      rw [hkept]
      exact List.mem_cons_of_mem _ hbefore
    exact List.mem_reverse.mp ((List.dropWhile_sublist isFiller).subset hmem)
  obtain ⟨component, hmoves⟩ := exists_last_component hkept
  rw [components_of_segments hsegments, hmoves, ← List.append_assoc] at hlast ⊢
  obtain rfl : component = .name name := by
    rw [List.getLast?_concat] at hlast
    exact Option.some.inj hlast
  unfold parent?
  simp only [hsegments, hkept]
  cases hcase : (before.dropWhile isFiller).reverse with
  | nil =>
      refine ⟨_, rfl, ?_⟩
      rw [components_first hrest (hslash first List.mem_cons_self), List.filterMap_nil,
        List.append_nil]
  | cons next others =>
      refine ⟨_, rfl, ?_⟩
      rw [components_ofNames_cons hrest (List.cons_ne_nil _ _)]
      intro other hother
      rcases List.mem_cons.mp hother with rfl | hother
      · exact hslash other List.mem_cons_self
      · exact hslash other (List.mem_cons_of_mem _ (hfront (hcase ▸ hother)))

end Parent

/-- A path with a file name has a parent, and means what the parent means and then its name. -/
theorem exists_parent_of_fileName?
    {path : Path} {name : Name}
    (hname : path.fileName? = some name) :
    ∃ directory,
      path.parent? = some directory ∧
      path.components = directory.components ++ [.name name] := by
  obtain ⟨first, rest, hsegments⟩ :=
    List.exists_cons_of_ne_nil (List.splitOn_ne_nil Name.slash path.bytes)
  change path.segments = first :: rest at hsegments
  obtain ⟨last, hlast, hcomponent⟩ := Option.bind_eq_some_iff.mp hname
  obtain rfl : last = .name name := by
    cases last with
    | name other => exact congrArg Component.name (Option.some.inj hcomponent)
    | root => cases hcomponent
    | here => cases hcomponent
    | up => cases hcomponent
  cases hkept : rest.reverse.dropWhile isFiller with
  | nil => exact exists_parent_of_first hsegments hlast hkept
  | cons segment before => exact exists_parent_of_rest hsegments hlast hkept

section Approached

variable {path directory : Path} {back : List Component}
variable (happroached : path.components = directory.components ++ back)

include happroached

/-- A path that a path begins with has only bytes of it, and slashes and dots. -/
theorem zero_not_mem_of_approached
    (hzero : (0 : UInt8) ∉ path.bytes) :
    (0 : UInt8) ∉ directory.bytes := by
  have hslash : (0 : UInt8) ≠ Name.slash := by decide
  intro hmem
  apply hzero
  obtain ⟨segment, hsegment, hbyte⟩ := (mem_bytes_iff hslash).mp hmem
  have hname : Component.ofSegment? segment = some (.name segment) := by
    have hother : ∀ dots, (0 : UInt8) ∉ dots → segment ≠ dots := by
      rintro dots hdots rfl
      exact hdots hbyte
    simp [Component.ofSegment?, hother [] (by decide), hother [Name.dot] (by decide),
      hother [Name.dot, Name.dot] (by decide)]
  have hmeans : Component.name segment ∈ directory.meaning := by
    rw [meaning_eq]
    exact List.mem_append_right _ (List.mem_filterMap.mpr ⟨segment, hsegment, hname⟩)
  have hpath : Component.name segment ∈ path.components := by
    rw [happroached]
    exact List.mem_append_left _ (mem_meaning_iff.mp hmeans).1
  obtain ⟨same, hsame, hcomponent⟩ := exists_segment_of_mem_components hpath
  obtain ⟨rfl, -⟩ := Component.ofSegment?_eq_name hcomponent
  exact (mem_bytes_iff hslash).mpr ⟨same, hsame, hbyte⟩

variable (hspelled : directory.bytes ≠ [])

include hspelled

theorem moves_of_approached
    {component : Component}
    (hmem : component ∈ back) :
    component = .up ∨ ∃ name : Name, name.Ordinary ∧ component = .name name := by
  obtain ⟨front, rest, rfl⟩ := List.append_of_mem hmem
  rw [← List.append_assoc] at happroached
  apply up_or_name_of_components_eq happroached
  intro hnone
  exact hspelled (components_eq_nil_iff.mp (List.append_eq_nil_iff.mp hnone).1)

theorem isAbsolute_of_approached :
    path.isAbsolute = directory.isAbsolute := by
  rw [Bool.eq_iff_iff, ← root_mem_components_iff, ← root_mem_components_iff, happroached,
    List.mem_append]
  refine or_iff_left ?_
  intro hback
  rcases moves_of_approached happroached hspelled hback with hup | ⟨name, -, hname⟩
  · cases hup
  · cases hname

theorem filterMap_walkSteps_of_approached :
    path.walkSteps.filterMap Component.ofSegment? =
      directory.walkSteps.filterMap Component.ofSegment? ++ back := by
  have hback : back.filter (· ≠ .here) = back := by
    apply List.filter_eq_self.mpr
    intro component hmem
    rcases moves_of_approached happroached hspelled hmem with rfl | ⟨name, -, rfl⟩
    · rfl
    · rfl
  have hmeaning : path.meaning = directory.meaning ++ back := by
    rw [meaning, happroached, List.filter_append, hback, meaning]
  rw [meaning_eq, meaning_eq, isAbsolute_of_approached happroached hspelled, List.append_assoc]
    at hmeaning
  rw [filterMap_walkSteps, filterMap_walkSteps]
  exact List.append_cancel_left hmeaning

end Approached

end Path

end HopRouting
