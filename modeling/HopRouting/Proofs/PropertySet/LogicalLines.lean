import Mathlib.Data.List.Induction
import HopRouting.Proofs.Answers
import HopRouting.PropertySet.File

/-!
# Logical lines

The reader joins lines as it goes and decides on what it has joined so far whether a line goes on.
Here a property text is read line by line instead: `Escapes` says of a text that it ends in an odd
number of backslashes, and a line goes on exactly if it ends so by itself.

**Lines.**  `Reading` says how lines fall into logical lines.  What has been joined never ends in an
odd number of backslashes, as one of them is dropped at each join, and so the two decisions agree
(`joinLines_of_open`).  Every list of lines has exactly one reading, and it is the one that the
reader finds (`reading_iff`).

**Entries.**  A character is escaped if the text before it ends in an odd number of backslashes.
`SplitsAt` splits a logical line at its first unescaped separator, `Gives` says which entry it
then gives, and `Faulty` why it gives none.

**Result.**  `ofText_reading`: a text denotes the entries of its logical lines, the last one winning
for a key, unless one of the lines is faulty; then the first of these is told.
-/

namespace HopRouting

namespace PropertySet

section Backslashes

/-- The text ends in an odd number of backslashes, so that a character after it is escaped. -/
def Escapes (text : List Char) : Prop :=
  (text.reverse.takeWhile (· = '\\')).length % 2 = 1

instance (text : List Char) : Decidable (Escapes text) :=
  inferInstanceAs (Decidable (_ = _))

@[simp] theorem not_escapes_nil :
    ¬ Escapes [] := by
  decide

theorem escapes_append_singleton_iff
    {text : List Char} {c : Char} :
    Escapes (text ++ [c]) ↔ c = '\\' ∧ ¬ Escapes text := by
  unfold Escapes
  rw [List.reverse_append, List.reverse_singleton, List.singleton_append, List.takeWhile_cons]
  by_cases hslash : c = '\\'
  · simp only [hslash, decide_true, if_true, List.length_cons, true_and]
    omega
  · simp [hslash]

/-- Text that does not escape what follows it has no influence on what follows. -/
theorem escapes_append_iff
    {text : List Char}
    (htext : ¬ Escapes text)
    {more : List Char} :
    Escapes (text ++ more) ↔ Escapes more := by
  induction more using List.reverseRecOn with
  | nil =>
      rw [List.append_nil]
      exact ⟨fun hescapes => absurd hescapes htext, fun hescapes => absurd hescapes not_escapes_nil⟩
  | append_singleton more c ih =>
      rw [← List.append_assoc, escapes_append_singleton_iff, escapes_append_singleton_iff, ih]

theorem Escapes.exists_eq
    {text : List Char}
    (hescapes : Escapes text) :
    text = text.dropLast ++ ['\\'] ∧ ¬ Escapes text.dropLast := by
  rcases List.eq_nil_or_concat text with rfl | ⟨before, c, rfl⟩
  · exact absurd hescapes not_escapes_nil
  · rw [List.concat_eq_append, escapes_append_singleton_iff] at hescapes
    obtain ⟨rfl, hbefore⟩ := hescapes
    rw [List.concat_eq_append, List.dropLast_concat]
    exact ⟨rfl, hbefore⟩

end Backslashes

section Lines

/-- The line without the carriage return that it ends in. -/
def dropReturn (line : List Char) : List Char :=
  if line.getLast? = some '\r' then line.dropLast else line

/-- The lines of a text, which end at newlines, or at carriage returns before them.  They are
trimmed. -/
def trimmedLines (text : String) : List (List Char) :=
  let lines := text.toList.splitOn '\n'
  (lines.dropLast.map dropReturn ++ lines.getLast?.toList).map Text.trim

/-- A logical line can start with the line, which is neither empty nor a comment. -/
def Starts (line : List Char) : Prop :=
  ∃ c rest, line = c :: rest ∧ c ≠ '#' ∧ c ≠ '!'

/-- The lines, the first of which has the given number, fall into the logical lines.  A logical line
goes on over the next line, whatever that holds, as long as the line at hand ends in an odd number
of backslashes, the last of which is dropped. -/
inductive Reading : Nat → List (List Char) → List LogicalLine → Prop
  | done {number : Nat} :
      Reading number [] []
  | skip {number : Nat} {line : List Char} {rest : List (List Char)} {logical : List LogicalLine}
      (hskipped : ¬ Starts line)
      (hrest : Reading (number + 1) rest logical) :
      Reading number (line :: rest) logical
  | closed {number : Nat} {continued : List (List Char)} {last : List Char}
      {rest : List (List Char)} {logical : List LogicalLine}
      (hstarts : ∃ first, (continued ++ [last]).head? = some first ∧ Starts first)
      (hcontinued : ∀ line ∈ continued, Escapes line)
      (hlast : ¬ Escapes last)
      (hrest : Reading (number + continued.length + 1) rest logical) :
      Reading number (continued ++ last :: rest)
        (⟨number, (continued.map List.dropLast).flatten ++ last⟩ :: logical)
  | ended {number : Nat} {continued : List (List Char)}
      (hstarts : ∃ first, continued.head? = some first ∧ Starts first)
      (hcontinued : ∀ line ∈ continued, Escapes line) :
      Reading number continued [⟨number, (continued.map List.dropLast).flatten⟩]

namespace OpenLine

/-- What the line holds so far. -/
def text (line : OpenLine) : List Char :=
  line.backwards.reverse

@[simp] theorem text_append
    (line : OpenLine)
    (more : List Char) :
    (line.append more).text = line.text ++ more := by
  simp [text, append]

theorem isContinued_iff
    (line : OpenLine) :
    line.isContinued = true ↔ Escapes line.text := by
  simp [isContinued, Escapes, text]

end OpenLine

theorem isSkipped_eq_true_iff
    {line : List Char} :
    isSkipped line = true ↔ ¬ Starts line := by
  cases line with
  | nil =>
      simp [isSkipped, Starts]
  | cons c rest =>
      simp [isSkipped, Starts]
      tauto

/-- A line is joined to an open one.  As what is open does not end in an odd number of backslashes,
it goes on exactly if the line that is joined to it does. -/
theorem joinLines_of_open
    {pending : OpenLine}
    (hpending : ¬ Escapes pending.text)
    (number : Nat)
    (line : List Char)
    (rest : List (List Char)) :
    joinLines (some pending) number (line :: rest) =
      if Escapes line then
        joinLines (some (pending.append line.dropLast)) (number + 1) rest
      else ⟨pending.number, pending.text ++ line⟩ :: joinLines none (number + 1) rest := by
  have hcontinued : (pending.append line).isContinued = true ↔ Escapes line := by
    rw [OpenLine.isContinued_iff, OpenLine.text_append, escapes_append_iff hpending]
  rw [joinLines]
  simp only [Option.isNone_some, Bool.false_and, Bool.false_eq_true, if_false, Option.getD_some,
    hcontinued]
  by_cases hescapes : Escapes line
  · have hjoined : (pending.append line).dropLast = pending.append line.dropLast := by
      obtain ⟨hline, -⟩ := hescapes.exists_eq
      rw [hline]
      simp [OpenLine.append, OpenLine.dropLast]
    rw [if_pos hescapes, if_pos hescapes, hjoined]
  · rw [if_neg hescapes, if_neg hescapes]
    simp [OpenLine.close, OpenLine.append, OpenLine.text]

theorem joinLines_of_starts
    {lines : List (List Char)}
    (hstarts : ∃ first, lines.head? = some first ∧ Starts first)
    (number : Nat) :
    joinLines none number lines = joinLines (some ⟨number, []⟩) number lines := by
  obtain ⟨first, hhead, hfirst⟩ := hstarts
  obtain ⟨rest, rfl⟩ := List.head?_eq_some_iff.mp hhead
  have hkept : isSkipped first = false := by
    rw [← Bool.not_eq_true, isSkipped_eq_true_iff, not_not]
    exact hfirst
  simp only [joinLines, hkept, Bool.and_false, Option.isNone_some,
    Bool.false_eq_true, if_false, Option.getD_none, Option.getD_some]

theorem joinLines_continued
    {pending : OpenLine}
    (hpending : ¬ Escapes pending.text)
    {continued : List (List Char)}
    (hcontinued : ∀ line ∈ continued, Escapes line)
    (number : Nat)
    (rest : List (List Char)) :
    ∃ joined : OpenLine,
      joined.number = pending.number ∧
      joined.text = pending.text ++ (continued.map List.dropLast).flatten ∧
      ¬ Escapes joined.text ∧
      joinLines (some pending) number (continued ++ rest) =
        joinLines (some joined) (number + continued.length) rest := by
  -- along the lines, as what is joined so far grows
  induction continued generalizing pending number with
  | nil =>
      exact ⟨pending, rfl, by simp, hpending, rfl⟩
  | cons line continued ih =>
      have hline := hcontinued line List.mem_cons_self
      have hopen : ¬ Escapes (pending.append line.dropLast).text := by
        rw [OpenLine.text_append, escapes_append_iff hpending]
        exact hline.exists_eq.2
      obtain ⟨joined, hnumber, htext, hjoined, hlines⟩ :=
        ih hopen (fun other hother => hcontinued other (List.mem_cons_of_mem _ hother)) (number + 1)
      refine ⟨joined, hnumber, ?_, hjoined, ?_⟩
      · rw [htext]
        simp
      · rw [List.cons_append, joinLines_of_open hpending, if_pos hline, hlines, List.length_cons,
          Nat.add_assoc, Nat.add_comm 1]

/-- The reader finds every reading. -/
theorem Reading.joinLines_eq
    {number : Nat} {lines : List (List Char)} {logical : List LogicalLine}
    (hreading : Reading number lines logical) :
    joinLines none number lines = logical := by
  have hempty : ∀ number, ¬ Escapes (OpenLine.text ⟨number, []⟩) := fun _ => not_escapes_nil
  induction hreading with
  | done =>
      rfl
  | skip hskipped hrest ih =>
      rw [joinLines]
      simp only [isSkipped_eq_true_iff.mpr hskipped, Option.isNone_none, Bool.and_self, if_true]
      exact ih
  | @closed number continued last rest logical hstarts hcontinued hlast hrest ih =>
      obtain ⟨joined, hnumber, htext, hopen, hlines⟩ :=
        joinLines_continued (hempty number) hcontinued number (last :: rest)
      have hhead : (continued ++ last :: rest).head? = (continued ++ [last]).head? := by
        rw [List.head?_append, List.head?_append, List.head?_cons, List.head?_cons]
      rw [← hhead] at hstarts
      rw [joinLines_of_starts hstarts, hlines, joinLines_of_open hopen, if_neg hlast, ih, hnumber,
        htext]
      rfl
  | @ended number continued hstarts hcontinued =>
      obtain ⟨joined, hnumber, htext, -, hlines⟩ :=
        joinLines_continued (hempty number) hcontinued number []
      rw [List.append_nil] at hlines
      rw [joinLines_of_starts hstarts, hlines]
      simp only [joinLines, Option.toList_some, List.map_singleton, OpenLine.close]
      rw [hnumber, ← OpenLine.text, htext]
      rfl

/-- Lines go on up to their end or up to a line that does not. -/
theorem exists_continued
    (lines : List (List Char)) :
    ∃ continued, (∀ line ∈ continued, Escapes line) ∧
      (lines = continued ∨
        ∃ last rest, lines = continued ++ last :: rest ∧ ¬ Escapes last) := by
  induction lines with
  | nil =>
      exact ⟨[], by simp, Or.inl rfl⟩
  | cons line rest ih =>
      by_cases hescapes : Escapes line
      · obtain ⟨continued, hcontinued, hend⟩ := ih
        refine ⟨line :: continued, ?_, ?_⟩
        · intro other hother
          rcases List.mem_cons.mp hother with rfl | hother
          · exact hescapes
          · exact hcontinued other hother
        · rcases hend with rfl | ⟨last, rest, rfl, hlast⟩
          · exact Or.inl rfl
          · exact Or.inr ⟨last, rest, rfl, hlast⟩
      · exact ⟨[], by simp, Or.inr ⟨line, rest, rfl, hescapes⟩⟩

theorem exists_reading
    (number : Nat)
    (lines : List (List Char)) :
    ∃ logical, Reading number lines logical := by
  -- on the number of lines, as a logical line may take any number of them
  induction hcount : lines.length using Nat.strongRecOn generalizing number lines with
  | ind count ih =>
      subst hcount
      cases lines with
      | nil =>
          exact ⟨[], .done⟩
      | cons line rest =>
          by_cases hstarts : Starts line
          · obtain ⟨continued, hcontinued, hend⟩ := exists_continued (line :: rest)
            rcases hend with rfl | ⟨last, remaining, hlines, hlast⟩
            · exact ⟨_, .ended ⟨line, rfl, hstarts⟩ hcontinued⟩
            · have hfirst :
                  ∃ first, (continued ++ [last]).head? = some first ∧ Starts first := by
                refine ⟨line, ?_, hstarts⟩
                have hhead := congrArg List.head? hlines
                simpa using hhead.symm
              have hshorter : remaining.length < (line :: rest).length := by
                rw [hlines, List.length_append, List.length_cons]
                omega
              obtain ⟨logical, hlogical⟩ :=
                ih remaining.length hshorter (number + continued.length + 1) remaining rfl
              rw [hlines]
              exact ⟨_, .closed hfirst hcontinued hlast hlogical⟩
          · obtain ⟨logical, hlogical⟩ := ih rest.length (by simp) (number + 1) rest rfl
            exact ⟨logical, .skip hstarts hlogical⟩

/-- Lines have one reading, and that is the one found by joining them. -/
theorem reading_iff
    {number : Nat} {lines : List (List Char)} {logical : List LogicalLine} :
    Reading number lines logical ↔ logical = joinLines none number lines := by
  constructor
  · intro hreading
    exact hreading.joinLines_eq.symm
  · rintro rfl
    obtain ⟨logical, hlogical⟩ := exists_reading number lines
    rwa [hlogical.joinLines_eq]

/-- Nothing of a logical line escapes what is not there. -/
theorem Reading.not_escapes
    {number : Nat} {lines : List (List Char)} {logical : List LogicalLine}
    (hreading : Reading number lines logical) :
    ∀ line ∈ logical, ¬ Escapes line.text := by
  have hjoined :
      ∀ continued : List (List Char), (∀ line ∈ continued, Escapes line) →
        ¬ Escapes (continued.map List.dropLast).flatten := by
    intro continued hcontinued
    induction continued with
    | nil =>
        exact not_escapes_nil
    | cons line continued ih =>
        rw [List.map_cons, List.flatten_cons,
          escapes_append_iff (hcontinued line List.mem_cons_self).exists_eq.2]
        exact ih fun other hother => hcontinued other (List.mem_cons_of_mem _ hother)
  induction hreading with
  | done =>
      intro line hline
      cases hline
  | skip hskipped hrest ih =>
      exact ih
  | closed hstarts hcontinued hlast hrest ih =>
      intro line hline
      rcases List.mem_cons.mp hline with rfl | hline
      · rw [escapes_append_iff (hjoined _ hcontinued)]
        exact hlast
      · exact ih line hline
  | ended hstarts hcontinued =>
      intro line hline
      rw [List.mem_singleton.mp hline]
      exact hjoined _ hcontinued

/-- A carriage return at the end of a line would be trimmed anyhow. -/
theorem trim_dropReturn
    (line : List Char) :
    Text.trim (dropReturn line) = Text.trim line := by
  unfold dropReturn
  split
  · next hreturn =>
      obtain ⟨before, rfl⟩ := List.getLast?_eq_some_iff.mp hreturn
      have hblank : Text.isBlank '\r' = true := by decide
      rw [List.dropLast_concat, Text.trim, Text.trim, Text.trimStart, Text.trimStart,
        List.dropWhile_append]
      split
      · next hnone =>
          rw [List.isEmpty_iff] at hnone
          simp [hnone, hblank, Text.trimEnd]
      · simp [Text.trimEnd, hblank]
  · rfl

theorem trimmedLines_eq
    (text : String) :
    trimmedLines text = (text.toList.splitOn '\n').map Text.trim := by
  have hlines : ∀ lines : List (List Char), lines.dropLast ++ lines.getLast?.toList = lines := by
    intro lines
    cases hlast : lines.getLast? with
    | none =>
        rw [List.getLast?_eq_none_iff.mp hlast]
        rfl
    | some last =>
        obtain ⟨earlier, rfl⟩ := List.getLast?_eq_some_iff.mp hlast
        simp
  have hsame : Text.trim ∘ dropReturn = Text.trim := funext trim_dropReturn
  simp only [trimmedLines]
  rw [List.map_append, List.map_map, hsame, ← List.map_append, hlines]

theorem reading_logicalLines_iff
    {text : String} {logical : List LogicalLine} :
    Reading 1 (trimmedLines text) logical ↔ logical = logicalLines text := by
  rw [reading_iff, trimmedLines_eq]
  rfl

end Lines

/-- The text has an unescaped separator. -/
def HasSeparator (text : List Char) : Prop :=
  ∃ before c after, text = before ++ c :: after ∧ isSeparator c = true ∧ ¬ Escapes before

/-- The second part of the text begins with its first unescaped separator. -/
structure SplitsAt (text before after : List Char) : Prop where
  text_eq : text = before ++ after
  separator : ∃ c rest, after = c :: rest ∧ isSeparator c = true
  unescaped : ¬ Escapes before
  first : ¬ HasSeparator before

/-- The logical line gives the entry: the key stands before the first unescaped separator and the
value after it, and the key is not empty. -/
def Gives (text : List Char) (key value : String) : Prop :=
  ∃ before after, SplitsAt text before after ∧
    unescape (Text.trim before) ≠ [] ∧
    key = String.ofList (unescape (Text.trim before)) ∧
    value = String.ofList (valueText after)

/-- The text has a separator that is not escaped where the text stands after another one. -/
def SeparatesAfter (earlier text : List Char) : Prop :=
  ∃ before c after, text = before ++ c :: after ∧ isSeparator c = true ∧
    ¬ Escapes (earlier ++ before)

theorem not_separatesAfter_nil
    (earlier : List Char) :
    ¬ SeparatesAfter earlier [] := by
  rintro ⟨before, c, after, htext, -⟩
  exact absurd htext.symm (List.append_ne_nil_of_right_ne_nil _ (List.cons_ne_nil _ _))

theorem separatesAfter_cons_iff
    {earlier : List Char} {c : Char} {text : List Char} :
    SeparatesAfter earlier (c :: text) ↔
      (isSeparator c = true ∧ ¬ Escapes earlier) ∨ SeparatesAfter (earlier ++ [c]) text := by
  constructor
  · rintro ⟨before, other, after, htext, hseparator, hunescaped⟩
    cases before with
    | nil =>
        cases htext
        rw [List.append_nil] at hunescaped
        exact Or.inl ⟨hseparator, hunescaped⟩
    | cons head before =>
        cases htext
        refine Or.inr ⟨before, other, after, rfl, hseparator, ?_⟩
        rwa [List.append_assoc]
  · rintro (⟨hseparator, hunescaped⟩ | ⟨before, other, after, rfl, hseparator, hunescaped⟩)
    · refine ⟨[], c, text, rfl, hseparator, ?_⟩
      rwa [List.append_nil]
    · refine ⟨c :: before, other, after, rfl, hseparator, ?_⟩
      rwa [List.append_assoc] at hunescaped

section Scan

variable {earlier : List Char} {isEscaped : Bool}

theorem escapes_append_singleton_iff_of_scan
    (hescaped : isEscaped = true ↔ Escapes earlier)
    (c : Char) :
    (!isEscaped && c = '\\') = true ↔ Escapes (earlier ++ [c]) := by
  rw [escapes_append_singleton_iff, ← hescaped]
  simp [and_comm]

theorem separates_iff_of_scan
    (hescaped : isEscaped = true ↔ Escapes earlier)
    (c : Char) :
    (!isEscaped && isSeparator c) = true ↔ isSeparator c = true ∧ ¬ Escapes earlier := by
  rw [← hescaped]
  simp [and_comm]

theorem splitAtSeparator?_eq_some_iff_of_scan
    (hescaped : isEscaped = true ↔ Escapes earlier)
    {text before after : List Char} :
    splitAtSeparator? isEscaped text = some (before, after) ↔
      text = before ++ after ∧
      (∃ c rest, after = c :: rest ∧ isSeparator c = true) ∧
      ¬ Escapes (earlier ++ before) ∧
      ¬ SeparatesAfter earlier before := by
  induction text generalizing earlier isEscaped before with
  | nil =>
      constructor
      · intro hsplit
        cases hsplit
      · rintro ⟨htext, ⟨c, rest, rfl, -⟩, -⟩
        exact absurd htext.symm (List.append_ne_nil_of_right_ne_nil _ (List.cons_ne_nil _ _))
  | cons c text ih =>
      have hnext := escapes_append_singleton_iff_of_scan hescaped c
      rw [splitAtSeparator?]
      by_cases hseparates : (!isEscaped && isSeparator c) = true
      · rw [if_pos hseparates]
        obtain ⟨hseparator, hunescaped⟩ := (separates_iff_of_scan hescaped c).mp hseparates
        constructor
        · intro hsplit
          cases hsplit
          refine ⟨rfl, ⟨c, text, rfl, hseparator⟩, ?_, not_separatesAfter_nil earlier⟩
          rwa [List.append_nil]
        · rintro ⟨htext, -, -, hfirst⟩
          cases before with
          | nil =>
              rw [htext]
              rfl
          | cons head before =>
              cases htext
              exact absurd (separatesAfter_cons_iff.mpr (Or.inl ⟨hseparator, hunescaped⟩)) hfirst
      · rw [if_neg hseparates, Option.map_eq_some_iff]
        rw [separates_iff_of_scan hescaped c] at hseparates
        constructor
        · rintro ⟨⟨before, rest⟩, hsplit, heq⟩
          cases heq
          obtain ⟨rfl, hafter, hunescaped, hfirst⟩ := (ih hnext).mp hsplit
          rw [List.append_assoc] at hunescaped
          refine ⟨rfl, hafter, hunescaped, ?_⟩
          rw [separatesAfter_cons_iff, not_or]
          exact ⟨hseparates, hfirst⟩
        · rintro ⟨htext, hafter, hunescaped, hfirst⟩
          cases before with
          | nil =>
              obtain ⟨head, rest, rfl, hseparator⟩ := hafter
              cases htext
              rw [List.append_nil] at hunescaped
              exact absurd ⟨hseparator, hunescaped⟩ hseparates
          | cons head before =>
              cases htext
              rw [separatesAfter_cons_iff, not_or] at hfirst
              refine ⟨(before, after), (ih hnext).mpr ⟨rfl, hafter, ?_, hfirst.2⟩, rfl⟩
              rwa [List.append_assoc]

end Scan

/-- Nothing stands before a line. -/
theorem escapes_nil_iff_of_scan :
    false = true ↔ Escapes [] := by
  simp

theorem splitAtSeparator?_eq_some_iff
    {text before after : List Char} :
    splitAtSeparator? false text = some (before, after) ↔ SplitsAt text before after := by
  rw [splitAtSeparator?_eq_some_iff_of_scan escapes_nil_iff_of_scan]
  constructor
  · rintro ⟨htext, hseparator, hunescaped, hfirst⟩
    exact ⟨htext, hseparator, hunescaped, hfirst⟩
  · rintro ⟨htext, hseparator, hunescaped, hfirst⟩
    exact ⟨htext, hseparator, hunescaped, hfirst⟩

theorem entryOf_eq_ok_iff
    {text : List Char} {key value : String} :
    entryOf text = .ok (key, value) ↔ Gives text key value := by
  unfold entryOf Gives
  cases hsplit : splitAtSeparator? false text with
  | none =>
      constructor
      · intro hentry
        cases hentry
      · rintro ⟨before, after, hsplits, -⟩
        cases hsplit.symm.trans (splitAtSeparator?_eq_some_iff.mpr hsplits)
  | some parts =>
      obtain ⟨before, after⟩ := parts
      have hsplits := splitAtSeparator?_eq_some_iff.mp hsplit
      dsimp only
      constructor
      · intro hentry
        split at hentry
        · cases hentry
        · next hkey =>
            cases hentry
            exact ⟨before, after, hsplits, hkey, rfl, rfl⟩
      · rintro ⟨before', after', hsplits', hkey, rfl, rfl⟩
        cases hsplit.symm.trans (splitAtSeparator?_eq_some_iff.mpr hsplits')
        simp only

namespace LogicalLine

theorem entry_eq_ok_iff
    {line : LogicalLine} {entry : String × String} :
    line.entry = .ok entry ↔ Gives line.text entry.1 entry.2 := by
  rw [← entryOf_eq_ok_iff, LogicalLine.entry]
  cases entryOf line.text with
  | error fault => simp [Except.mapError]
  | ok given => simp [Except.mapError]

end LogicalLine

section Texts

/-- The last of the entries with the key has the value. -/
def LastGives (entries : List (String × String)) (key value : String) : Prop :=
  ∃ earlier later, entries = earlier ++ (key, value) :: later ∧ ∀ entry ∈ later, entry.1 ≠ key

theorem lastGives_append_singleton_iff
    {entries : List (String × String)} {last : String × String} {key value : String} :
    LastGives (entries ++ [last]) key value ↔
      if last.1 = key then last.2 = value else LastGives entries key value := by
  split
  · next hkey =>
      constructor
      · rintro ⟨earlier, later, hsplit, hlater⟩
        rcases List.eq_nil_or_concat later with rfl | ⟨later, final, rfl⟩
        · obtain ⟨-, hlast⟩ := List.append_inj' hsplit rfl
          cases hlast
          rfl
        · rw [List.concat_eq_append, ← List.cons_append, ← List.append_assoc] at hsplit
          obtain ⟨-, hlast⟩ := List.append_inj' hsplit rfl
          cases hlast
          exact absurd hkey (hlater last (by simp))
      · rintro rfl
        subst hkey
        exact ⟨entries, [], rfl, by simp⟩
  · next hkey =>
      constructor
      · rintro ⟨earlier, later, hsplit, hlater⟩
        rcases List.eq_nil_or_concat later with rfl | ⟨later, final, rfl⟩
        · obtain ⟨-, hlast⟩ := List.append_inj' hsplit rfl
          cases hlast
          exact absurd rfl hkey
        · rw [List.concat_eq_append, ← List.cons_append, ← List.append_assoc] at hsplit
          obtain ⟨rfl, -⟩ := List.append_inj' hsplit rfl
          refine ⟨earlier, later, rfl, ?_⟩
          intro entry hentry
          exact hlater entry (by simp [hentry])
      · rintro ⟨earlier, later, rfl, hlater⟩
        refine ⟨earlier, later ++ [last], by simp, ?_⟩
        intro entry hentry
        rcases List.mem_append.mp hentry with hentry | hentry
        · exact hlater entry hentry
        · rw [List.mem_singleton.mp hentry]
          exact hkey

/-- A set made of a list of entries has the last ones. -/
theorem getElem?_ofList_iff_lastGives
    {entries : List (String × String)} {key value : String} :
    (.ofList entries : PropertySet)[key]? = some value ↔ LastGives entries key value := by
  induction entries using List.reverseRecOn with
  | nil =>
      simp [LastGives]
  | append_singleton entries last ih =>
      have hinsert :
          (.ofList (entries ++ [last]) : PropertySet) =
            (.ofList entries : PropertySet).insert last.1 last.2 := by
        rw [Std.ExtTreeMap.ofList_eq_insertMany_empty, Std.ExtTreeMap.insertMany_append,
          ← Std.ExtTreeMap.ofList_eq_insertMany_empty, Std.ExtTreeMap.insertMany_list_singleton]
      simp only [hinsert, Std.ExtTreeMap.getElem?_insert, lastGives_append_singleton_iff,
        Std.LawfulEqOrd.compare_eq_iff_eq]
      split
      · exact Option.some_inj
      · exact ih

theorem parse_eq_ok_iff
    {text : String} {properties : PropertySet} :
    parse text = .ok properties ↔
      ∃ entries,
        List.Forall₂ (fun line entry => Gives line.text entry.1 entry.2) (logicalLines text)
          entries ∧
        ∀ key value, properties[key]? = some value ↔ LastGives entries key value := by
  have hread :
      parse text = .ok properties ↔
        ∃ entries, (logicalLines text).mapM LogicalLine.entry = .ok entries ∧
          .ofList entries = properties := by
    unfold parse
    cases (logicalLines text).mapM LogicalLine.entry with
    | error cause => simp [Except.map]
    | ok entries => simp [Except.map]
  have hgiven :
      ∀ entries : List (String × String),
        .ofList entries = properties ↔
          ∀ key value, properties[key]? = some value ↔ LastGives entries key value := by
    intro entries
    constructor
    · rintro rfl key value
      exact getElem?_ofList_iff_lastGives
    · intro hsame
      apply Std.ExtTreeMap.ext_getElem?
      intro key
      apply Option.ext
      intro value
      rw [getElem?_ofList_iff_lastGives, hsame]
  simp only [hread, mapM_eq_ok_iff, LogicalLine.entry_eq_ok_iff, hgiven]

/-- Comments and empty lines are joined to a line that goes on, and the end of the text ends it. -/
example :
    logicalLines "k=a\\\n  # b\\\n\n! c\n\\\\\\\n\nd \\" =
      [⟨1, "k=a# b".toList⟩, ⟨5, "\\\\".toList⟩, ⟨7, "d ".toList⟩] := by
  decide

end Texts

end PropertySet

end HopRouting
