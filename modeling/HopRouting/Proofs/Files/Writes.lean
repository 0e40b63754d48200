import HopRouting.FileTree.Edit
import HopRouting.Proofs.Files.Walks

/-!
# Files that were written

A path that is opened for writing leads to a place where there is a file or nothing; `Opens` says
how it gets there, over the directories and the links on the way.

**Result.**  `read_of_write`: what was written to a path is read from it.  The only place that is
different after the write is one that no step of the way goes through, because neither a directory
nor a link was there.
-/

namespace HopRouting

namespace FileTree

variable {tree : FileTree}

/-- A file can be put at the location: there is a file already, or nothing. -/
def Free (tree : FileTree) (location : Location) : Prop :=
  tree.entry? location = none ∨ ∃ content, tree.entry? location = some (.file content)

/-- A path whose steps are walked from a location, with so many links to follow at most, is opened
for writing at a place. -/
inductive Opens (tree : FileTree) : Nat → Location → List Name → Location → Prop
  /-- The last step names a file, or what can become one, in the directory reached. -/
  | reached {links : Nat} {location directory : Location} {front : List Name} {last name : Name}
      (arrived : tree.stride location front = .ok (.arrived directory))
      (isDirectory : tree.isDirectoryAt directory = true)
      (named : Component.ofSegment? last = some (.name name))
      (short : name.length ≤ Name.lengthLimit)
      (free : tree.Free (directory ++ [name])) :
      Opens tree links location (front ++ [last]) (directory ++ [name])
  /-- The last step names a link in the directory reached. -/
  | lastLink {links : Nat} {location directory final : Location} {front : List Name}
      {last name : Name} {target : Path}
      (arrived : tree.stride location front = .ok (.arrived directory))
      (isDirectory : tree.isDirectoryAt directory = true)
      (named : Component.ofSegment? last = some (.name name))
      (short : name.length ≤ Name.lengthLimit)
      (link : tree.entry? (directory ++ [name]) = some (.link target))
      (noSlash : target.endsInSlash = false)
      (onward : Opens tree links (target.start directory) target.steps final) :
      Opens tree (links + 1) location (front ++ [last]) final
  /-- A step before the last one names a link. -/
  | earlierLink {links : Nat} {location directory final : Location} {front rest : List Name}
      {last name : Name} {target : Path}
      (atLink : tree.stride location front = .ok (.atLink directory name target rest))
      (onward :
        Opens tree links (target.start directory) (target.walkSteps ++ rest ++ [last]) final) :
      Opens tree (links + 1) location (front ++ [last]) final

theorem opens_of_writeLocation
    {links : Nat} {location final : Location} {steps : List Name} {endsInSlash : Bool}
    (hopen : tree.writeLocation links location steps endsInSlash = .ok final) :
    endsInSlash = false ∧ tree.Opens links location steps final := by
  induction links using Nat.strongRecOn generalizing location steps endsInSlash with
  | ind links ih =>
      unfold writeLocation at hopen
      obtain ⟨stride, hstride, hopen⟩ := bind_eq_ok_iff.mp hopen
      cases hlast : steps.getLast? with
      | none =>
          rw [List.getLast?_eq_none_iff] at hlast
          subst hlast
          cases hstride
          dsimp only at hopen
          split at hopen
          · cases hopen
          · cases hopen
      | some last =>
          obtain ⟨front, rfl⟩ := List.getLast?_eq_some_iff.mp hlast
          rw [List.dropLast_concat] at hstride
          rw [hlast] at hopen
          cases stride with
          | atLink directory name target rest =>
              cases links with
              | zero => cases hopen
              | succ links =>
                  obtain ⟨hends, honward⟩ := ih links (Nat.lt_succ_self links) hopen
                  exact ⟨hends, .earlierLink hstride honward⟩
          | arrived directory =>
              dsimp only at hopen
              split at hopen
              · cases hopen
              · next hdirectory =>
                rw [Option.bind_some] at hopen
                split at hopen
                · next name hnamed =>
                  split at hopen
                  · cases hopen
                  · next hends =>
                    split at hopen
                    · cases hopen
                    · next hshort =>
                      have hdirectory : tree.isDirectoryAt directory = true := by
                        simpa using hdirectory
                      have hshort := Nat.le_of_not_lt hshort
                      refine ⟨Bool.eq_false_iff.mpr hends, ?_⟩
                      split at hopen
                      · next hentry =>
                        cases hopen
                        exact .reached hstride hdirectory hnamed hshort (Or.inl hentry)
                      · next content hentry =>
                        cases hopen
                        exact .reached hstride hdirectory hnamed hshort (Or.inr ⟨content, hentry⟩)
                      · cases hopen
                      · next target hentry =>
                        cases links with
                        | zero => cases hopen
                        | succ links =>
                            obtain ⟨hslash, honward⟩ := ih links (Nat.lt_succ_self links) hopen
                            exact .lastLink hstride hdirectory hnamed hshort hentry hslash honward
                · cases hopen

theorem Opens.final_ne_nil
    {links : Nat} {location final : Location} {steps : List Name}
    (hopens : tree.Opens links location steps final) :
    final ≠ [] := by
  induction hopens with
  | reached => simp
  | lastLink _ _ _ _ _ _ _ ih => exact ih
  | earlierLink _ _ ih => exact ih

theorem Opens.free
    {links : Nat} {location final : Location} {steps : List Name}
    (hopens : tree.Opens links location steps final) :
    tree.Free final := by
  induction hopens with
  | reached _ _ _ _ hfree => exact hfree
  | lastLink _ _ _ _ _ _ _ ih => exact ih
  | earlierLink _ _ ih => exact ih

section Insert

variable {place : Location}

theorem entry?_insert_self
    (hplace : place ≠ [])
    (entry : Entry) :
    FileTree.entry? (tree.insert place entry) place = some entry := by
  rw [entry?_of_ne_nil hplace]
  exact Std.ExtTreeMap.getElem?_insert_self

theorem entry?_insert_of_ne
    {location : Location}
    (hne : location ≠ place)
    (entry : Entry) :
    FileTree.entry? (tree.insert place entry) location = tree.entry? location := by
  unfold entry? insert
  simp [Std.ExtTreeMap.getElem?_insert, Ne.symm hne]

/-- What was a file is one. -/
theorem exists_entry?_insert
    (hplace : place ≠ [])
    (content : List UInt8)
    {location : Location} {held : List UInt8}
    (hentry : tree.entry? location = some (.file held)) :
    ∃ now, FileTree.entry? (tree.insert place (.file content)) location = some (.file now) := by
  by_cases hsame : location = place
  · rw [hsame]
    exact ⟨content, entry?_insert_self hplace _⟩
  · rw [entry?_insert_of_ne hsame]
    exact ⟨held, hentry⟩

variable (hfree : tree.Free place) (content : List UInt8)

include hfree

/-- Putting a file where there was a file or nothing leaves directories and links alone. -/
theorem Free.entry?_insert
    {location : Location} {entry : Entry}
    (hentry : tree.entry? location = some entry)
    (hother : ∀ held, entry ≠ .file held) :
    FileTree.entry? (tree.insert place (.file content)) location = some entry := by
  have hne : location ≠ place := by
    rintro rfl
    rcases hfree with hnone | ⟨held, hheld⟩
    · cases hnone.symm.trans hentry
    · cases hheld.symm.trans hentry
      exact hother held rfl
  rw [entry?_insert_of_ne hne]
  exact hentry

theorem Free.isDirectoryAt_insert
    {location : Location}
    (hdirectory : tree.isDirectoryAt location = true) :
    (tree.insert place (.file content)).isDirectoryAt location = true := by
  have hentry : tree.entry? location = some .directory := of_decide_eq_true hdirectory
  exact decide_eq_true (hfree.entry?_insert content hentry fun held => Entry.noConfusion)

/-- A stride that gets somewhere gets there too after a file was put where there was a file or
nothing. -/
theorem Free.stride_insert
    (hplace : place ≠ [])
    {location : Location} {steps : List Name} {stride : Stride}
    (hstride : tree.stride location steps = .ok stride) :
    (tree.insert place (.file content)).stride location steps = .ok stride := by
  induction steps generalizing location with
  | nil =>
      exact hstride
  | cons step rest ih =>
      rw [FileTree.stride] at hstride ⊢
      cases hdirectory : tree.isDirectoryAt location with
      | false =>
          simp [hdirectory] at hstride
      | true =>
          simp only [hdirectory, hfree.isDirectoryAt_insert content hdirectory, Bool.not_true,
            Bool.false_eq_true, if_false] at hstride ⊢
          split at hstride
          · next hup =>
            exact ih hstride
          · next name hname =>
            split at hstride
            · cases hstride
            · next hshort =>
              simp only [hshort, if_false]
              cases hentry : tree.entry? (location ++ [name]) with
              | none =>
                  simp [hentry] at hstride
              | some entry =>
                  simp only [hentry] at hstride
                  cases entry with
                  | directory =>
                      rw [hfree.entry?_insert content hentry fun held => Entry.noConfusion]
                      exact ih hstride
                  | link target =>
                      rw [hfree.entry?_insert content hentry fun held => Entry.noConfusion]
                      exact hstride
                  | file held =>
                      obtain ⟨now, hnow⟩ := exists_entry?_insert hplace content hentry
                      rw [hnow]
                      exact ih hstride
          · next hidle =>
            exact ih hstride

end Insert

/-- A path that was opened for writing leads to where the file was put. -/
theorem Opens.walk_insert
    {links : Nat} {location final : Location} {steps : List Name}
    (hopens : tree.Opens links location steps final)
    (content : List UInt8) :
    (tree.insert final (.file content)).walk true links location steps = .ok final := by
  have hfree := hopens.free
  have hplace := hopens.final_ne_nil
  induction hopens with
  | @reached links location directory front last name arrived isDirectory named short free =>
      have harrived := hfree.stride_insert content hplace arrived
      have hdirectory := hfree.isDirectoryAt_insert content isDirectory
      have hfile :
          FileTree.entry? (tree.insert (directory ++ [name]) (.file content))
              (directory ++ [name]) =
            some (.file content) :=
        entry?_insert_self hplace _
      have hlast :
          (tree.insert (directory ++ [name]) (.file content)).stride directory [last] =
            .ok (.arrived (directory ++ [name])) := by
        simp [stride, hdirectory, named, Nat.not_lt.mpr short, hfile]
      rw [walk_eq, stride_append, harrived]
      simp only [hlast]
  | @lastLink links location directory final front last name target arrived isDirectory named short
      link noSlash onward ih =>
      have harrived := hfree.stride_insert content hplace arrived
      have hdirectory := hfree.isDirectoryAt_insert content isDirectory
      have hlink := hfree.entry?_insert content link fun held => Entry.noConfusion
      have hlast :
          (tree.insert final (.file content)).stride directory [last] =
            .ok (.atLink directory name target []) := by
        simp [stride, hdirectory, named, Nat.not_lt.mpr short, hlink]
      have honward := ih hfree hplace
      have hsteps : target.walkSteps = target.steps := by simp [Path.walkSteps, noSlash]
      rw [walk_eq, stride_append, harrived]
      simp only [hlast, List.append_nil, hsteps]
      exact honward
  | @earlierLink links location directory final front rest last name target atLink onward ih =>
      have hlink := hfree.stride_insert content hplace atLink
      have honward := ih hfree hplace
      rw [walk_eq, stride_append, hlink]
      simp only [← List.append_assoc]
      exact honward

/-- What was written to a path is read from it. -/
theorem read_of_write
    {path : Path} {content : List UInt8} {written : FileTree}
    (hwrite : tree.write path content = .ok written) :
    written.read path = .ok content := by
  obtain ⟨⟨⟩, hcheck, hwrite⟩ := bind_eq_ok_iff.mp hwrite
  obtain ⟨final, hopen, hwrite⟩ := bind_eq_ok_iff.mp hwrite
  cases hwrite
  obtain ⟨hslash, hopens⟩ := opens_of_writeLocation hopen
  have hlocate : (tree.insert final (.file content)).locate path = .ok final := by
    refine bind_eq_ok_iff.mpr ⟨_, hcheck, ?_⟩
    have hsteps : path.walkSteps = path.steps := by simp [Path.walkSteps, hslash]
    rw [hsteps]
    exact hopens.walk_insert content
  unfold read
  rw [bind_eq_ok_iff]
  refine ⟨final, hlocate, ?_⟩
  rw [entry?_insert_self hopens.final_ne_nil]

end FileTree

end HopRouting
