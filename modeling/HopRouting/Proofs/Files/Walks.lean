import HopRouting.Proofs.Answers
import HopRouting.Proofs.Files.Joins

/-!
# Walks below a directory

A path of ordinary names below a directory that no link lies in is walked straight down: through
directories that are there, each name short enough, to the location that the names are appended to.

**Results.**  `locate_join_iff` and `read_join_iff` say what such a path leads to, and `list_join`
what is found in a directory on the way.
-/

namespace HopRouting

namespace FileTree

theorem entry?_of_ne_nil
    {tree : FileTree} {location : Location}
    (hne : location ≠ []) :
    tree.entry? location = tree.entries[location]? := by
  unfold entry?
  exact if_neg hne

/-- The names lead from a location down to an entry: all but the last are those of directories, and
none is too long to be looked for. -/
inductive Leads (tree : FileTree) : Location → List Name → Prop
  | here {location : Location} : Leads tree location []
  | enter {location : Location} {name : Name} {rest : List Name}
      (directory : tree.isDirectoryAt location = true)
      (short : name.length ≤ Name.lengthLimit)
      (present : tree.entry? (location ++ [name]) ≠ none)
      (leads : Leads tree (location ++ [name]) rest) :
      Leads tree location (name :: rest)

/-- No link lies below the location. -/
def Plain (tree : FileTree) (location : Location) : Prop :=
  ∀ names target, tree.entry? (location ++ names) ≠ some (.link target)

section Leads

variable {tree : FileTree} {location : Location}

theorem leads_append_iff
    {front back : List Name} :
    tree.Leads location (front ++ back) ↔
      tree.Leads location front ∧ tree.Leads (location ++ front) back := by
  induction front generalizing location with
  | nil =>
      rw [List.nil_append, List.append_nil]
      exact ⟨fun hleads => ⟨.here, hleads⟩, And.right⟩
  | cons name rest ih =>
      have hassoc : location ++ name :: rest = location ++ [name] ++ rest := by simp
      rw [List.cons_append, hassoc]
      constructor
      · rintro (_ | ⟨hdirectory, hshort, hpresent, hleads⟩)
        obtain ⟨hfront, hback⟩ := ih.mp hleads
        exact ⟨.enter hdirectory hshort hpresent hfront, hback⟩
      · rintro ⟨_ | ⟨hdirectory, hshort, hpresent, hfront⟩, hback⟩
        exact .enter hdirectory hshort hpresent (ih.mpr ⟨hfront, hback⟩)

theorem leads_singleton_iff
    {name : Name} :
    tree.Leads location [name] ↔
      tree.isDirectoryAt location = true ∧
      name.length ≤ Name.lengthLimit ∧
      tree.entry? (location ++ [name]) ≠ none := by
  constructor
  · rintro (_ | ⟨hdirectory, hshort, hpresent, -⟩)
    exact ⟨hdirectory, hshort, hpresent⟩
  · rintro ⟨hdirectory, hshort, hpresent⟩
    exact .enter hdirectory hshort hpresent .here

/-- Names can only be followed further from a directory. -/
theorem Leads.isDirectoryAt
    {front back : List Name}
    (hleads : tree.Leads location (front ++ back))
    (hback : back ≠ []) :
    tree.isDirectoryAt (location ++ front) = true := by
  obtain ⟨-, hrest⟩ := leads_append_iff.mp hleads
  cases hrest with
  | here => exact absurd rfl hback
  | enter hdirectory _ _ _ => exact hdirectory

theorem Plain.append
    (hplain : tree.Plain location)
    (names : List Name) :
    tree.Plain (location ++ names) := by
  intro more target
  rw [List.append_assoc]
  exact hplain (names ++ more) target

end Leads

section Strides

theorem stride_append
    (tree : FileTree)
    (location : Location)
    (front back : List Name) :
    tree.stride location (front ++ back) =
      match tree.stride location front with
      | .error cause => .error cause
      | .ok (.arrived reached) => tree.stride reached back
      | .ok (.atLink directory name target rest) =>
          .ok (.atLink directory name target (rest ++ back)) := by
  induction front generalizing location with
  | nil =>
      rfl
  | cons step rest ih =>
      rw [List.cons_append, stride, stride]
      cases tree.isDirectoryAt location with
      | false => rfl
      | true =>
          simp only [Bool.not_true, Bool.false_eq_true, if_false]
          split
          · exact ih location.dropLast
          · next name _ =>
            split
            · rfl
            · split
              · rfl
              · rfl
              · exact ih (location ++ [name])
          · exact ih location

/-- Where no link lies below, the first step of a stride either enters the entry of its name, or it
fails because the name leads nowhere. -/
theorem stride_cons_cases
    {tree : FileTree} {location : Location}
    (hplain : tree.Plain location)
    {name : Name}
    (hstep : Component.ofSegment? name = some (.name name))
    (rest : List Name) :
    (tree.Leads location [name] ∧
        tree.stride location (name :: rest) = tree.stride (location ++ [name]) rest) ∨
      (¬ tree.Leads location [name] ∧
        ∃ cause, tree.stride location (name :: rest) = .error cause) := by
  rw [leads_singleton_iff]
  by_cases hdirectory : tree.isDirectoryAt location = true
  · by_cases hshort : name.length ≤ Name.lengthLimit
    · cases hentry : tree.entry? (location ++ [name]) with
      | none =>
          refine Or.inr ⟨by simp, .notFound, ?_⟩
          simp [stride, hdirectory, hstep, Nat.not_lt.mpr hshort, hentry]
      | some entry =>
          refine Or.inl ⟨⟨hdirectory, hshort, by simp⟩, ?_⟩
          cases entry with
          | link target => exact absurd hentry (hplain [name] target)
          | directory => simp [stride, hdirectory, hstep, Nat.not_lt.mpr hshort, hentry]
          | file content => simp [stride, hdirectory, hstep, Nat.not_lt.mpr hshort, hentry]
    · refine Or.inr ⟨fun hleads => hshort hleads.2.1, .nameTooLong, ?_⟩
      simp [stride, hdirectory, hstep, Nat.lt_of_not_le hshort]
  · refine Or.inr ⟨fun hleads => hdirectory hleads.1, .notADirectory, ?_⟩
    simp [stride, hdirectory]

/-- From a place that no link lies below, a stride along ordinary names goes straight down. -/
theorem stride_of_plain
    {tree : FileTree} {location : Location}
    (hplain : tree.Plain location)
    {names : List Name}
    (hnames : ∀ name ∈ names, name.Ordinary) :
    ∃ result : Except FileError Location,
      tree.stride location names = result.map Stride.arrived ∧
      ∀ final, result = .ok final ↔ final = location ++ names ∧ tree.Leads location names := by
  induction names generalizing location with
  | nil =>
      refine ⟨.ok location, rfl, ?_⟩
      intro final
      rw [List.append_nil, Except.ok.injEq]
      exact ⟨fun hfinal => ⟨hfinal.symm, .here⟩, fun hfinal => hfinal.1.symm⟩
  | cons name rest ih =>
      have hsplit : tree.Leads location (name :: rest) ↔
          tree.Leads location [name] ∧ tree.Leads (location ++ [name]) rest :=
        @leads_append_iff tree location [name] rest
      have hstep := Component.ofSegment?_of_ordinary (hnames name List.mem_cons_self)
      rcases stride_cons_cases hplain hstep rest with
        ⟨henter, hstride⟩ | ⟨hnowhere, cause, hstride⟩
      · obtain ⟨result, honward, hresult⟩ :=
          ih (hplain.append [name]) fun other hother => hnames other (List.mem_cons_of_mem _ hother)
        refine ⟨result, hstride.trans honward, ?_⟩
        intro final
        rw [hresult, hsplit, List.append_assoc, List.singleton_append]
        exact and_congr_right fun _ => (and_iff_right henter).symm
      · refine ⟨.error cause, hstride, ?_⟩
        intro final
        rw [hsplit]
        constructor
        · rintro ⟨⟩
        · rintro ⟨-, henter, -⟩
          exact absurd henter hnowhere

end Strides

theorem walk_eq
    (tree : FileTree)
    (links : Nat)
    (location : Location)
    (steps : List Name) :
    tree.walk true links location steps =
      match tree.stride location steps with
      | .error cause => .error cause
      | .ok (.arrived reached) => .ok reached
      | .ok (.atLink directory _ target rest) =>
          match links with
          | 0 => .error .tooManyLinks
          | links + 1 =>
              tree.walk true links (target.start directory) (target.walkSteps ++ rest) := by
  conv_lhs => unfold walk
  cases tree.stride location steps with
  | error cause => rfl
  | ok stride =>
      cases stride with
      | arrived reached => rfl
      | atLink directory name target rest =>
          cases links with
          | zero => simp [bind, Except.bind, throw, throwThe, MonadExceptOf.throw]
          | succ links => simp [bind, Except.bind]

section Append

variable {tree : FileTree} {reached : Location} {idle back : List Name}

/-- Steps that lead nowhere else, if they lead anywhere. -/
def Idle (tree : FileTree) (steps : List Name) : Prop :=
  ∀ start stride, tree.stride start steps = .ok stride → stride = .arrived start

/-- A walk can be gone on with where it ended, if that needs no further link; idle steps that it
ended with can be left out. -/
theorem walk_append
    (hidle : tree.Idle idle)
    {result : Except FileError Location}
    (hback : tree.stride reached back = result.map Stride.arrived)
    {links : Nat} {location : Location} {front : List Name}
    (hwalk : tree.walk true links location (front ++ idle) = .ok reached) :
    tree.walk true links location (front ++ back) = result := by
  induction links using Nat.strongRecOn generalizing location front with
  | ind links ih =>
      rw [walk_eq, stride_append] at hwalk ⊢
      cases hfront : tree.stride location front with
      | error cause =>
          simp [hfront] at hwalk
      | ok stride =>
          cases stride with
          | arrived mid =>
              simp only [hfront] at hwalk ⊢
              have hmid : mid = reached := by
                cases hstride : tree.stride mid idle with
                | error cause =>
                    simp [hstride] at hwalk
                | ok stride =>
                    rw [hstride, hidle mid stride hstride] at hwalk
                    exact Except.ok.inj hwalk
              rw [hmid, hback]
              cases result with
              | error cause => rfl
              | ok final => rfl
          | atLink directory name target rest =>
              cases links with
              | zero =>
                  simp [hfront] at hwalk
              | succ links =>
                  simp only [hfront, ← List.append_assoc] at hwalk ⊢
                  exact ih links (Nat.lt_succ_self links) hwalk

end Append

theorem idle_nil
    (tree : FileTree) :
    tree.Idle [] := by
  intro start stride hstride
  exact (Except.ok.inj hstride).symm

theorem idle_dot
    (tree : FileTree) :
    tree.Idle [[Name.dot]] := by
  intro start stride hstride
  rw [FileTree.stride] at hstride
  cases hdirectory : tree.isDirectoryAt start with
  | false =>
      simp [hdirectory] at hstride
  | true =>
      simp [hdirectory, Component.ofSegment?, FileTree.stride] at hstride
      exact hstride.symm

section Below

variable {tree : FileTree} {root : Path} {location : Location}

theorem bytes_ne_nil_of_locate
    (hlocate : tree.locate root = .ok location) :
    root.bytes ≠ [] := by
  intro hempty
  simp [locate, Path.check, hempty, bind, Except.bind] at hlocate

variable (hlocate : tree.locate root = .ok location) (hplain : tree.Plain location)
variable {names : List Name} (hnames : OrdinaryNames names)

include hlocate hplain hnames

theorem locate_join_iff
    {final : Location} :
    tree.locate (root.join (.ofNames names)) = .ok final ↔
      (root.join (.ofNames names)).check = .ok () ∧
      final = location ++ names ∧
      tree.Leads location names := by
  have hbase := bytes_ne_nil_of_locate hlocate
  obtain ⟨result, hstride, hresult⟩ := stride_of_plain hplain hnames.ordinary
  obtain ⟨-, -, hwalk⟩ := bind_eq_ok_iff.mp hlocate
  have hidle :
      ∃ idle, root.walkSteps = root.steps ++ idle ∧ tree.Idle idle := by
    unfold Path.walkSteps
    split
    · exact ⟨_, rfl, idle_dot tree⟩
    · exact ⟨[], (List.append_nil _).symm, idle_nil tree⟩
  obtain ⟨idle, hsteps, hidle⟩ := hidle
  rw [hsteps] at hwalk
  have hjoined := walk_append hidle hstride hwalk
  have hstart :
      (root.join (.ofNames names)).start tree.workingDirectory =
        root.start tree.workingDirectory := by
    rw [Path.start, Path.isAbsolute_join hbase hnames, Path.start]
  rw [← hresult, ← hjoined, ← Path.walkSteps_join hbase hnames, ← hstart]
  constructor
  · intro hfinal
    obtain ⟨⟨⟩, hjoin, hend⟩ := bind_eq_ok_iff.mp hfinal
    exact ⟨hjoin, hend⟩
  · rintro ⟨hjoin, hend⟩
    exact bind_eq_ok_iff.mpr ⟨(), hjoin, hend⟩

theorem read_join_iff
    {content : List UInt8} :
    tree.read (root.join (.ofNames names)) = .ok content ↔
      (root.join (.ofNames names)).check = .ok () ∧
      tree.Leads location names ∧
      tree.entry? (location ++ names) = some (.file content) := by
  unfold read
  rw [bind_eq_ok_iff]
  constructor
  · rintro ⟨final, hfinal, hcontent⟩
    obtain ⟨hcheck, rfl, hleads⟩ := (locate_join_iff hlocate hplain hnames).mp hfinal
    refine ⟨hcheck, hleads, ?_⟩
    split at hcontent
    · next held hheld =>
      rw [hheld, Except.ok.inj hcontent]
    · cases hcontent
  · rintro ⟨hcheck, hleads, hentry⟩
    refine ⟨_, (locate_join_iff hlocate hplain hnames).mpr ⟨hcheck, rfl, hleads⟩, ?_⟩
    rw [hentry]

/-- A directory that the names lead to can be listed. -/
theorem list_join
    (hcheck : (root.join (.ofNames names)).check = .ok ())
    (hleads : tree.Leads location names)
    (hdirectory : tree.isDirectoryAt (location ++ names) = true) :
    tree.list (root.join (.ofNames names)) = .ok (tree.namesIn (location ++ names)) := by
  have hfinal := (locate_join_iff hlocate hplain hnames).mpr ⟨hcheck, rfl, hleads⟩
  unfold list
  simp [hfinal, bind, Except.bind, hdirectory]

end Below

end FileTree

end HopRouting
