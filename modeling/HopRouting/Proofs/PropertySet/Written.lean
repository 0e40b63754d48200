import HopRouting.Proofs.Sync.Scans
import HopRouting.Proofs.Text.Parts
import HopRouting.PropertySet.File

/-!
# Property sets written down

An entry is written on a line of its own, with an equals sign after the key and the value in double
quotes.  Newline, tab, carriage return and form feed have letters, which are written after a
backslash.  A value is written as it is otherwise, but for backslashes, which are doubled; in a key
a backslash precedes everything that could end the key or begin a comment.

Each pass of the reader undoes its own part of this: what is escaped is no separator
(`splitAtSeparator?_writtenKey`), nothing of a line is trimmed (`trim_line`), a line holds an entry
and is not continued (`mapM_entry_joinLines`), and resolving the escapes gives the text back
(`unescape_flatMap_written`).

**Result.**  `ofText_written`: every property set can be written down and read back, unless a key is
empty or ends in a blank that has no letter, which would be trimmed.
-/

namespace HopRouting

namespace PropertySet

section Writing

/-- The letter that stands for a control character. -/
def letter? : Char → Option Char
  | '\n' => some 'n'
  | '\t' => some 't'
  | '\r' => some 'r'
  | '\x0c' => some 'f'
  | _ => none

/-- A character in writing, where some characters need a backslash. -/
def writtenChar (needsEscape : Char → Bool) (c : Char) : List Char :=
  match letter? c with
  | some letter => ['\\', letter]
  | none => if needsEscape c then ['\\', c] else [c]

/-- A key may not show anything that would end it or begin a comment. -/
def escapedInKey (c : Char) : Bool :=
  c = '\\' || c = '=' || c = ':' || c = '#' || c = '!' || Text.isBlank c

/-- A value, which stands in quotes, may not show a backslash that means itself. -/
def escapedInValue (c : Char) : Bool :=
  c = '\\'

/-- A key in writing. -/
def writtenKey (key : String) : List Char :=
  key.toList.flatMap (writtenChar escapedInKey)

/-- A value in writing, without its quotes. -/
def writtenValue (value : String) : List Char :=
  value.toList.flatMap (writtenChar escapedInValue)

/-- The line of an entry. -/
def line (entry : String × String) : List Char :=
  writtenKey entry.1 ++ '=' :: '"' :: (writtenValue entry.2 ++ ['"'])

/-- Entries in writing, one on a line. -/
def written (entries : List (String × String)) : List Char :=
  ['\n'].intercalate (entries.map line)

example :
    String.ofList (written [("#a", "\\"), (" b\t=", "\"c d\n")]) =
      "\\#a=\"\\\\\"\n\\ b\\t\\==\"\"c d\\n\"" := by
  decide

/-- The key has a character, and its last one is no blank, unless that has a letter. -/
structure Writable (key : String) : Prop where
  ne_empty : key ≠ ""
  last :
    ∀ c : Char, key.toList.getLast? = some c → Text.isBlank c = true →
      c = '\n' ∨ c = '\t' ∨ c = '\r' ∨ c = '\x0c'

end Writing

section Characters

/-- A letter stands for its control character, and it is neither blank nor breaks a line. -/
theorem escaped_letter
    {c letter : Char}
    (hletter : letter? c = some letter) :
    escaped letter = c ∧ Text.isBlank letter = false ∧ letter ≠ '\n' := by
  unfold letter? at hletter
  split at hletter <;> cases hletter <;> decide

/-- The ways in which a character is written: with its letter, with a backslash, or as it is. -/
theorem writtenChar_cases
    (needsEscape : Char → Bool)
    (c : Char) :
    (∃ letter, letter? c = some letter ∧ writtenChar needsEscape c = ['\\', letter]) ∨
      (letter? c = none ∧ needsEscape c = true ∧ writtenChar needsEscape c = ['\\', c]) ∨
      (letter? c = none ∧ needsEscape c = false ∧ writtenChar needsEscape c = [c]) := by
  unfold writtenChar
  cases hletter : letter? c with
  | some letter => exact Or.inl ⟨letter, rfl, rfl⟩
  | none =>
      cases hneeds : needsEscape c with
      | true => exact Or.inr (Or.inl ⟨rfl, rfl, rfl⟩)
      | false => exact Or.inr (Or.inr ⟨rfl, rfl, rfl⟩)

theorem unescape_cons_of_ne
    {c : Char}
    (hne : c ≠ '\\')
    (rest : List Char) :
    unescape (c :: rest) = c :: unescape rest := by
  conv_lhs => unfold unescape
  split <;> simp_all

/-- Resolving the escapes of a text in writing gives the text back. -/
theorem unescape_flatMap_written
    {needsEscape : Char → Bool}
    (hslash : needsEscape '\\' = true)
    (hplain : ∀ c, needsEscape c = true → escaped c = c)
    (text : List Char) :
    unescape (text.flatMap (writtenChar needsEscape)) = text := by
  induction text with
  | nil =>
      rfl
  | cons c rest ih =>
      rw [List.flatMap_cons]
      rcases writtenChar_cases needsEscape c with
        ⟨letter, hletter, hwritten⟩ | ⟨-, hneeds, hwritten⟩ | ⟨-, hneeds, hwritten⟩
      · rw [hwritten, List.cons_append, List.cons_append, List.nil_append, unescape,
          (escaped_letter hletter).1, ih]
      · rw [hwritten, List.cons_append, List.cons_append, List.nil_append, unescape,
          hplain c hneeds, ih]
      · have hne : c ≠ '\\' := by
          rintro rfl
          cases hneeds.symm.trans hslash
        rw [hwritten, List.singleton_append, unescape_cons_of_ne hne, ih]

/-- Nothing in writing breaks a line. -/
theorem newline_not_mem_written
    {needsEscape : Char → Bool}
    (text : List Char) :
    '\n' ∉ text.flatMap (writtenChar needsEscape) := by
  rw [List.mem_flatMap]
  rintro ⟨c, -, hmem⟩
  rcases writtenChar_cases needsEscape c with
    ⟨letter, hletter, hwritten⟩ | ⟨hletter, -, hwritten⟩ | ⟨hletter, -, hwritten⟩
  · rw [hwritten] at hmem
    have hne := (escaped_letter hletter).2.2
    simp [hne.symm] at hmem
  · rw [hwritten] at hmem
    obtain rfl : '\n' = c := by simpa using hmem
    cases hletter
  · rw [hwritten] at hmem
    obtain rfl : '\n' = c := by simpa using hmem
    cases hletter

end Characters

section Keys

theorem plain_of_not_escapedInKey
    {c : Char}
    (hplain : escapedInKey c = false) :
    isSeparator c = false ∧ Text.isBlank c = false ∧ c ≠ '\\' ∧ c ≠ '#' ∧ c ≠ '!' := by
  simp only [escapedInKey, Bool.or_eq_false_iff, decide_eq_false_iff_not] at hplain
  obtain ⟨⟨⟨⟨⟨hslash, hequals⟩, hcolon⟩, hhash⟩, hbang⟩, hblank⟩ := hplain
  refine ⟨?_, hblank, hslash, hhash, hbang⟩
  simp [isSeparator, hequals, hcolon, hblank]

theorem escaped_of_escapedInKey
    {c : Char}
    (hneeds : escapedInKey c = true) :
    escaped c = c := by
  unfold escaped
  split
  · cases hneeds
  · cases hneeds
  · cases hneeds
  · cases hneeds
  · rfl

theorem splitAtSeparator?_escape
    (c : Char)
    (rest : List Char) :
    splitAtSeparator? false ('\\' :: c :: rest) =
      (splitAtSeparator? false rest).map fun split => ('\\' :: c :: split.1, split.2) := by
  have hslash : isSeparator '\\' = false := by decide
  simp only [splitAtSeparator?, hslash, Bool.not_false, Bool.and_false, Bool.false_eq_true,
    if_false, Bool.true_and, decide_true, Bool.not_true, Bool.false_and, Option.map_map]
  rfl

theorem splitAtSeparator?_plain
    {c : Char}
    (hseparator : isSeparator c = false)
    (hslash : c ≠ '\\')
    (rest : List Char) :
    splitAtSeparator? false (c :: rest) =
      (splitAtSeparator? false rest).map fun split => (c :: split.1, split.2) := by
  simp only [splitAtSeparator?, hseparator, hslash, Bool.and_false, Bool.false_eq_true, if_false,
    decide_false]

/-- The first separator of a line is the equals sign after the key. -/
theorem splitAtSeparator?_writtenKey
    (key : String)
    (rest : List Char) :
    splitAtSeparator? false (writtenKey key ++ '=' :: rest) =
      some (writtenKey key, '=' :: rest) := by
  unfold writtenKey
  induction key.toList with
  | nil =>
      rfl
  | cons c text ih =>
      rw [List.flatMap_cons, List.append_assoc]
      rcases writtenChar_cases escapedInKey c with
        ⟨letter, -, hwritten⟩ | ⟨-, -, hwritten⟩ | ⟨-, hneeds, hwritten⟩
      · rw [hwritten, List.cons_append, List.cons_append, List.nil_append,
          splitAtSeparator?_escape, ih]
        rfl
      · rw [hwritten, List.cons_append, List.cons_append, List.nil_append,
          splitAtSeparator?_escape, ih]
        rfl
      · obtain ⟨hseparator, -, hslash, -, -⟩ := plain_of_not_escapedInKey hneeds
        rw [hwritten, List.singleton_append, splitAtSeparator?_plain hseparator hslash, ih]
        rfl

/-- A key in writing does not look like a blank or a comment. -/
theorem head_writtenKey
    {key : String} {c : Char}
    (hhead : (writtenKey key).head? = some c) :
    Text.isBlank c = false ∧ c ≠ '#' ∧ c ≠ '!' := by
  unfold writtenKey at hhead
  cases hkey : key.toList with
  | nil =>
      rw [hkey] at hhead
      cases hhead
  | cons first text =>
      rw [hkey, List.flatMap_cons] at hhead
      rcases writtenChar_cases escapedInKey first with
        ⟨letter, -, hwritten⟩ | ⟨-, -, hwritten⟩ | ⟨-, hneeds, hwritten⟩
      · rw [hwritten] at hhead
        cases hhead
        decide
      · rw [hwritten] at hhead
        cases hhead
        decide
      · rw [hwritten] at hhead
        cases hhead
        obtain ⟨-, hblank, -, hhash, hbang⟩ := plain_of_not_escapedInKey hneeds
        exact ⟨hblank, hhash, hbang⟩

/-- A key in writing does not end in a blank. -/
theorem Writable.last_writtenKey
    {key : String}
    (hkey : Writable key)
    {c : Char}
    (hlast : (writtenKey key).getLast? = some c) :
    Text.isBlank c = false := by
  obtain ⟨text, last, htext⟩ : ∃ text last, key.toList = text ++ [last] := by
    refine ⟨_, _, (List.dropLast_append_getLast ?_).symm⟩
    rw [ne_eq, String.toList_eq_nil_iff]
    exact hkey.ne_empty
  have hend : key.toList.getLast? = some last := by
    rw [htext, List.getLast?_concat]
  rw [writtenKey, htext, List.flatMap_append, List.flatMap_cons, List.flatMap_nil,
    List.append_nil] at hlast
  rcases writtenChar_cases escapedInKey last with
    ⟨letter, hletter, hwritten⟩ | ⟨hletter, -, hwritten⟩ | ⟨-, hneeds, hwritten⟩
  · rw [hwritten] at hlast
    obtain rfl : letter = c := by simpa using hlast
    exact (escaped_letter hletter).2.1
  · rw [hwritten] at hlast
    obtain rfl : last = c := by simpa using hlast
    by_contra hblank
    rcases hkey.last last hend (Bool.not_eq_false _ ▸ hblank) with rfl | rfl | rfl | rfl <;>
      cases hletter
  · rw [hwritten] at hlast
    obtain rfl : last = c := by simpa using hlast
    exact (plain_of_not_escapedInKey hneeds).2.1

end Keys

section Lines

theorem head_line
    {entry : String × String} {c : Char}
    (hhead : (line entry).head? = some c) :
    Text.isBlank c = false ∧ c ≠ '#' ∧ c ≠ '!' := by
  unfold line at hhead
  rw [List.head?_append] at hhead
  cases hkey : (writtenKey entry.1).head? with
  | none =>
      rw [hkey] at hhead
      cases hhead
      decide
  | some first =>
      rw [hkey] at hhead
      cases hhead
      exact head_writtenKey hkey

theorem last_line
    (entry : String × String) :
    (line entry).getLast? = some '"' := by
  have hline :
      line entry = (writtenKey entry.1 ++ '=' :: '"' :: writtenValue entry.2) ++ ['"'] := by
    simp [line]
  rw [hline, List.getLast?_concat]

theorem trim_line
    (entry : String × String) :
    Text.trim (line entry) = line entry := by
  apply Text.Trimmed.trim_eq
  constructor
  · intro c hhead
    exact (head_line hhead).1
  · intro c hlast
    rw [last_line] at hlast
    cases hlast
    decide

theorem isSkipped_line
    (entry : String × String) :
    isSkipped (line entry) = false := by
  cases hline : line entry with
  | nil =>
      simp [line] at hline
  | cons c rest =>
      have hhead : (line entry).head? = some c := by rw [hline]; rfl
      obtain ⟨-, hhash, hbang⟩ := head_line hhead
      simp [isSkipped, hhash, hbang]

theorem newline_not_mem_line
    (entry : String × String) :
    '\n' ∉ line entry := by
  have hkey : '\n' ∉ writtenKey entry.1 := newline_not_mem_written _
  have hvalue : '\n' ∉ writtenValue entry.2 := newline_not_mem_written _
  simp [line, hkey, hvalue]

/-- The value is what stands in the quotes after the equals sign. -/
theorem valueText_written
    (value : String) :
    valueText ('=' :: '"' :: (writtenValue value ++ ['"'])) = value.toList := by
  have htrim :
      Text.trim ('"' :: (writtenValue value ++ ['"'])) = '"' :: (writtenValue value ++ ['"']) := by
    apply Text.Trimmed.trim_eq
    constructor
    · intro c hhead
      cases hhead
      decide
    · intro c hlast
      rw [← List.cons_append, List.getLast?_concat] at hlast
      cases hlast
      decide
  have hequals : Text.isBlank '=' = false := by decide
  have hunescape : unescape (writtenValue value) = value.toList := by
    apply unescape_flatMap_written (by decide)
    intro c hneeds
    obtain rfl : c = '\\' := of_decide_eq_true hneeds
    rfl
  unfold valueText
  rw [Text.trimStart, List.dropWhile_cons_of_neg (by simp [hequals]), dropAssignment, htrim]
  simp [unquote, hunescape]

/-- The entry of a line is the one that was written. -/
theorem entryOf_line
    {entry : String × String}
    (hkey : Writable entry.1) :
    entryOf (line entry) = .ok entry := by
  have htrim : Text.trim (writtenKey entry.1) = writtenKey entry.1 :=
    Text.Trimmed.trim_eq
      ⟨fun c hhead => (head_writtenKey hhead).1, fun c hlast => hkey.last_writtenKey hlast⟩
  have hunescape : unescape (writtenKey entry.1) = entry.1.toList :=
    unescape_flatMap_written (by decide) (fun c hneeds => escaped_of_escapedInKey hneeds) _
  unfold entryOf line
  rw [splitAtSeparator?_writtenKey]
  simp only [htrim, hunescape, valueText_written, String.ofList_toList]
  split
  · next hnil =>
    exact absurd (String.toList_eq_nil_iff.mp hnil) hkey.ne_empty
  · rw [String.ofList_toList]

end Lines

section Texts

/-- Lines of entries and empty lines after them are joined into one logical line an entry. -/
theorem mapM_entry_joinLines
    {entries : List (String × String)}
    (hkeys : ∀ entry ∈ entries, Writable entry.1)
    {blanks : List (List Char)}
    (hblanks : ∀ blank ∈ blanks, blank = [])
    (number : Nat) :
    (joinLines none number (entries.map line ++ blanks)).mapM LogicalLine.entry = .ok entries := by
  induction entries generalizing number with
  | nil =>
      induction blanks generalizing number with
      | nil =>
          rfl
      | cons blank rest ih =>
          obtain rfl := hblanks blank List.mem_cons_self
          exact ih (fun other hother => hblanks other (List.mem_cons_of_mem _ hother)) (number + 1)
  | cons entry rest ih =>
      have hrest :=
        ih (fun other hother => hkeys other (List.mem_cons_of_mem _ hother)) (number + 1)
      have hentry := entryOf_line (hkeys entry List.mem_cons_self)
      have hopen : ((⟨number, []⟩ : OpenLine).append (line entry)).isContinued = false := by
        simp [OpenLine.append, OpenLine.isContinued, line]
      rw [List.map_cons, List.cons_append, joinLines]
      simp only [isSkipped_line, Option.isNone_none, Bool.and_false, Bool.false_eq_true, if_false,
        Option.getD_none, hopen, List.mapM_cons, hrest]
      simp [LogicalLine.entry, OpenLine.close, OpenLine.append, hentry, Except.mapError, bind,
        Except.bind, pure, Except.pure]

/-- Entries in writing, with or without a line break after the last one, are read as entries. -/
theorem mapM_entry_logicalLines
    {entries : List (String × String)}
    (hkeys : ∀ entry ∈ entries, Writable entry.1)
    {ending : List Char}
    (hending : ending = [] ∨ ending = ['\n']) :
    (logicalLines (String.ofList (written entries ++ ending))).mapM LogicalLine.entry =
      .ok entries := by
  have hlines :
      ∃ blanks : List (List Char), (∀ blank ∈ blanks, blank = []) ∧
        (written entries).splitOn '\n' = entries.map line ++ blanks := by
    cases entries with
    | nil =>
        exact ⟨[[]], by simp, rfl⟩
    | cons entry rest =>
        refine ⟨[], by simp, ?_⟩
        rw [List.append_nil, written]
        apply List.splitOn_intercalate
        · intro text htext
          obtain ⟨other, -, rfl⟩ := List.mem_map.mp htext
          exact newline_not_mem_line other
        · simp
  have htrimmed : (entries.map line).map Text.trim = entries.map line := by
    simp [Function.comp_def, trim_line]
  obtain ⟨blanks, hblanks, hsplit⟩ := hlines
  have hempty : blanks.map Text.trim = blanks := by
    have hsame : ∀ blank ∈ blanks, Text.trim blank = id blank := by
      intro blank hblank
      rw [hblanks blank hblank]
      rfl
    rw [List.map_congr_left hsame, List.map_id]
  unfold logicalLines
  rw [String.toList_ofList]
  rcases hending with rfl | rfl
  · rw [List.append_nil, hsplit, List.map_append, htrimmed, hempty]
    exact mapM_entry_joinLines hkeys hblanks 1
  · rw [List.splitOn_append_cons_self, hsplit, List.splitOn_nil, List.map_append, List.map_append,
      htrimmed, hempty, List.append_assoc]
    apply mapM_entry_joinLines hkeys
    intro blank hblank
    rcases List.mem_append.mp hblank with hmem | hmem
    · exact hblanks blank hmem
    · simpa using hmem

/-- Entries without order are the set that they are the entries of. -/
theorem ofList_eq_of_perm
    {properties : PropertySet} {entries : List (String × String)}
    (hentries : entries.Perm properties.toList) :
    Std.ExtTreeMap.ofList entries = properties := by
  have hdistinct :
      entries.Pairwise fun entry other => ¬ compare entry.1 other.1 = .eq := by
    apply properties.distinct_keys_toList.perm hentries.symm
    intro entry other hdifferent hsame
    rw [Std.LawfulEqOrd.compare_eq_iff_eq] at hsame hdifferent
    exact hdifferent hsame.symm
  apply Std.ExtTreeMap.ext_getElem?
  intro key
  apply Option.ext
  intro value
  rw [getElem?_ofList_eq_some_iff hdistinct, hentries.mem_iff,
    Std.ExtTreeMap.mem_toList_iff_getElem?_eq_some]

/-- A property set that is written down, its entries in any order, is read back, whether or not the
last line is ended. -/
theorem ofText_written
    {properties : PropertySet}
    (hkeys : ∀ key ∈ properties, Writable key)
    {entries : List (String × String)}
    (hentries : entries.Perm properties.toList)
    {ending : List Char}
    (hending : ending = [] ∨ ending = ['\n'])
    (path : Path) :
    ofText path (String.ofList (written entries ++ ending)) = .ok properties := by
  have hwritable : ∀ entry ∈ entries, Writable entry.1 := by
    intro entry hentry
    apply hkeys
    rw [Std.ExtTreeMap.mem_iff_isSome_getElem?,
      Std.ExtTreeMap.mem_toList_iff_getElem?_eq_some.mp (hentries.subset hentry)]
    rfl
  unfold ofText parse
  rw [mapM_entry_logicalLines hwritable hending]
  exact congrArg Except.ok (ofList_eq_of_perm hentries)

/-- Entries whose keys begin like comments or with a blank, and end in a backslash or a tab. -/
def thornyEntries : List (String × String) :=
  [("!größe\\", " = \\\" "), ("\t# =:\t", "\"\r\n\""), ("\u2028x", "")]

theorem ofText_written_thorny :
    (∀ key ∈ (.ofList thornyEntries : PropertySet), Writable key) ∧
      thornyEntries.Perm (.ofList thornyEntries : PropertySet).toList ∧
      ofText (.ofText "thorny.props") (String.ofList (written thornyEntries ++ ['\n'])) =
        .ok (.ofList thornyEntries) := by
  have hkeys : ∀ key ∈ (.ofList thornyEntries : PropertySet), Writable key := by
    intro key hkey
    rw [Std.ExtTreeMap.mem_ofList] at hkey
    obtain rfl | rfl | rfl : key = "!größe\\" ∨ key = "\t# =:\t" ∨ key = "\u2028x" := by
      simpa [thornyEntries] using hkey
    · refine ⟨by decide, ?_⟩
      intro c hlast hblank
      cases hlast
      cases hblank
    · refine ⟨by decide, ?_⟩
      intro c hlast _
      cases hlast
      exact Or.inr (Or.inl rfl)
    · refine ⟨by decide, ?_⟩
      intro c hlast hblank
      cases hlast
      cases hblank
  have hentries : thornyEntries.Perm (.ofList thornyEntries : PropertySet).toList := by
    decide
  exact ⟨hkeys, hentries, ofText_written hkeys hentries (Or.inr rfl) _⟩

end Texts

end PropertySet

end HopRouting
