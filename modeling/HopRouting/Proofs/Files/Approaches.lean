import HopRouting.Proofs.Files.Parents

/-!
# Directories on the way to a file

A walk to a file goes through all directories that its path names before.  So each of them can be
entered by a path of its own, however that path is spelled: what a walk does is decided by what its
steps mean, except that a step without a meaning asks for a directory.

**Walks.**  `walk_split`: where a walk can be cut, its first part leads to a directory.
`walk_congr`: two walks whose steps mean the same lead to the same directory.

**Results.**  Where a path can be looked up, every path that it begins with enters a directory
(`exists_enters_of_approached`).  This can be listed, unless the path is too long
(`list_of_enters`) or empty (`list_of_bytes_eq_nil`).
-/

namespace HopRouting

namespace FileTree

/-- What steps mean, one component for each step that means anything. -/
def moves (steps : List Name) : List Component :=
  steps.filterMap Component.ofSegment?

/-- Two strides that end alike, but for steps without a meaning among those that are left. -/
inductive Similar : Stride → Stride → Prop
  | arrived (location : Location) : Similar (.arrived location) (.arrived location)
  | atLink {directory : Location} {name : Name} {target : Path} {rest rest' : List Name}
      (left : moves rest = moves rest') :
      Similar (.atLink directory name target rest) (.atLink directory name target rest')

section Strides

variable {tree : FileTree} {location : Location}

theorem isDirectoryAt_of_stride
    {step : Name} {rest : List Name} {result : Stride}
    (hstride : tree.stride location (step :: rest) = .ok result) :
    tree.isDirectoryAt location = true := by
  by_contra hdirectory
  rw [Bool.not_eq_true] at hdirectory
  simp [stride, hdirectory] at hstride

/-- From a directory, steps without a meaning lead nowhere else. -/
theorem stride_skip
    (hdirectory : tree.isDirectoryAt location = true)
    {idle : List Name}
    (hidle : ∀ step ∈ idle, Component.ofSegment? step = none)
    (rest : List Name) :
    tree.stride location (idle ++ rest) = tree.stride location rest := by
  induction idle with
  | nil =>
      rfl
  | cons step others ih =>
      have hnext := ih fun other hother => hidle other (List.mem_cons_of_mem _ hother)
      rw [List.cons_append, stride, hidle step List.mem_cons_self]
      simp only [hdirectory, Bool.not_true, Bool.false_eq_true, if_false]
      exact hnext

/-- Steps that mean the same make strides that end alike, if they end at a directory or a link. -/
theorem stride_congr
    {steps steps' : List Name} {result : Stride}
    (hmoves : moves steps = moves steps')
    (hstride : tree.stride location steps = .ok result)
    (hend : ∀ reached, result = .arrived reached → tree.isDirectoryAt reached = true) :
    ∃ result', tree.stride location steps' = .ok result' ∧ Similar result result' := by
  induction steps generalizing location steps' with
  | nil =>
      have hidle : ∀ step ∈ steps', Component.ofSegment? step = none :=
        List.filterMap_eq_nil_iff.mp hmoves.symm
      cases hstride
      refine ⟨.arrived location, ?_, .arrived location⟩
      rw [← List.append_nil steps', stride_skip (hend location rfl) hidle]
      rfl
  | cons step rest ih =>
      have hdirectory := isDirectoryAt_of_stride hstride
      cases hstep : Component.ofSegment? step with
      | none =>
          have hskip := @stride_skip tree location hdirectory [step] (by simpa using hstep) rest
          rw [moves, List.filterMap_cons_none hstep] at hmoves
          rw [List.singleton_append] at hskip
          exact ih hmoves (hskip ▸ hstride)
      | some component =>
          rw [moves, List.filterMap_cons_some hstep] at hmoves
          obtain ⟨idle, step', rest', rfl, hidle, hstep', hrest⟩ :=
            List.filterMap_eq_cons_iff.mp hmoves.symm
          rw [stride_skip hdirectory hidle]
          rw [stride, hstep] at hstride
          rw [stride, hstep']
          simp only [hdirectory, Bool.not_true, Bool.false_eq_true, if_false] at hstride ⊢
          cases component with
          | up => exact ih hrest.symm hstride
          | name name =>
              simp only at hstride ⊢
              split at hstride
              · cases hstride
              · next hshort =>
                rw [if_neg hshort]
                split at hstride
                · cases hstride
                · cases hstride
                  exact ⟨_, rfl, .atLink hrest.symm⟩
                · exact ih hrest.symm hstride
          | root => exact ih hrest.symm hstride
          | here => exact ih hrest.symm hstride

end Strides

section Walks

variable {tree : FileTree} {links : Nat} {location : Location}

theorem moves_append
    (front back : List Name) :
    moves (front ++ back) = moves front ++ moves back :=
  List.filterMap_append

/-- Walks whose steps mean the same lead to the same directory. -/
theorem walk_congr
    {steps steps' : List Name} {reached : Location}
    (hmoves : moves steps = moves steps')
    (hwalk : tree.walk true links location steps = .ok reached)
    (hdirectory : tree.isDirectoryAt reached = true) :
    tree.walk true links location steps' = .ok reached := by
  induction links using Nat.strongRecOn generalizing location steps steps' with
  | ind links ih =>
      rw [walk_eq] at hwalk ⊢
      cases hstride : tree.stride location steps with
      | error cause =>
          simp [hstride] at hwalk
      | ok result =>
          simp only [hstride] at hwalk
          have hend : ∀ final, result = .arrived final → tree.isDirectoryAt final = true := by
            rintro final rfl
            cases hwalk
            exact hdirectory
          obtain ⟨result', hstride', hsimilar⟩ := stride_congr hmoves hstride hend
          simp only [hstride']
          cases hsimilar with
          | arrived final => exact hwalk
          | @atLink directory name target rest rest' hleft =>
              cases links with
              | zero =>
                  cases hwalk
              | succ links =>
                  have hmore :
                      moves (target.walkSteps ++ rest) = moves (target.walkSteps ++ rest') := by
                    rw [moves_append, moves_append, hleft]
                  exact ih links (Nat.lt_succ_self links) hmore hwalk

/-- Where a walk can be cut, its first part leads to a place that the second part goes on from,
which is a directory if there is a second part. -/
theorem walk_split
    {front back : List Name} {final : Location}
    (hwalk : tree.walk true links location (front ++ back) = .ok final) :
    ∃ reached links',
      tree.walk true links location front = .ok reached ∧
      tree.walk true links' reached back = .ok final ∧
      (back ≠ [] → tree.isDirectoryAt reached = true) := by
  induction links using Nat.strongRecOn generalizing location front with
  | ind links ih =>
      rw [walk_eq, stride_append] at hwalk
      rw [walk_eq]
      cases hfront : tree.stride location front with
      | error cause =>
          simp [hfront] at hwalk
      | ok result =>
          cases result with
          | arrived reached =>
              simp only [hfront] at hwalk ⊢
              refine ⟨reached, links, rfl, ?_, ?_⟩
              · rw [walk_eq]
                exact hwalk
              · intro hback
                obtain ⟨step, rest, rfl⟩ := List.exists_cons_of_ne_nil hback
                cases hstride : tree.stride reached (step :: rest) with
                | error cause =>
                    simp [hstride] at hwalk
                | ok result =>
                    exact isDirectoryAt_of_stride hstride
          | atLink directory name target rest =>
              cases links with
              | zero =>
                  simp [hfront] at hwalk
              | succ links =>
                  simp only [hfront, ← List.append_assoc] at hwalk ⊢
                  exact ih links (Nat.lt_succ_self links) hwalk

end Walks

/-- A directory is at the place that a path leads to, where the empty path leads to the working
directory. -/
structure Enters (tree : FileTree) (path : Path) (location : Location) : Prop where
  reached :
    tree.walk true linkLimit (path.start tree.workingDirectory) path.walkSteps = .ok location
  isDirectory : tree.isDirectoryAt location = true

section Approached

variable {tree : FileTree} {path directory : Path} {back : List Component} {final : Location}
variable (hlocate : tree.locate path = .ok final)
variable (happroached : path.components = directory.components ++ back)
variable (hspelled : directory.bytes ≠ [])

include hlocate happroached hspelled

/-- Whatever can be looked up lies behind directories that can be entered. -/
theorem exists_enters_of_approached
    (hback : back ≠ []) :
    ∃ location, tree.Enters directory location := by
  obtain ⟨-, -, hwalk⟩ := bind_eq_ok_iff.mp hlocate
  have hmoves := Path.filterMap_walkSteps_of_approached happroached hspelled
  obtain ⟨front, rest, hsteps, hfront, hrest⟩ := List.filterMap_eq_append_iff.mp hmoves
  rw [hsteps, Path.start, Path.isAbsolute_of_approached happroached hspelled, ← Path.start] at hwalk
  obtain ⟨location, -, hreached, -, hdirectory⟩ := walk_split hwalk
  have hisDirectory : tree.isDirectoryAt location = true := by
    apply hdirectory
    rintro rfl
    exact hback hrest.symm
  exact ⟨location, walk_congr hfront hreached hisDirectory, hisDirectory⟩

/-- A directory on the way to what can be looked up can be listed, unless its path is too long. -/
theorem list_of_enters
    {location : Location}
    (henters : tree.Enters directory location) :
    tree.list directory =
      if directory.bytes.length ≤ Path.lengthLimit then .ok (tree.namesIn location)
      else .error .nameTooLong := by
  obtain ⟨⟨⟩, hcheck, -⟩ := bind_eq_ok_iff.mp hlocate
  have hzero : directory.bytes.contains 0 = false := by
    unfold Path.check at hcheck
    split_ifs at hcheck with hnul hempty hlong
    simp only [List.contains_iff_mem] at hnul
    rw [Bool.eq_false_iff, ne_eq, List.contains_iff_mem]
    exact Path.zero_not_mem_of_approached happroached hnul
  unfold list locate Path.check
  rw [hzero, if_neg Bool.false_ne_true, if_neg hspelled]
  by_cases hshort : directory.bytes.length ≤ Path.lengthLimit
  · rw [if_pos hshort, if_neg (Nat.not_lt.mpr hshort)]
    simp [bind, Except.bind, henters.reached, henters.isDirectory]
  · rw [if_neg hshort, if_pos (Nat.lt_of_not_le hshort)]
    rfl

end Approached

/-- The empty path is not looked up. -/
theorem list_of_bytes_eq_nil
    (tree : FileTree)
    {path : Path}
    (hempty : path.bytes = []) :
    tree.list path = .error .notFound := by
  simp [list, locate, Path.check, hempty, bind, Except.bind]

end FileTree

end HopRouting
