import Mathlib.Data.List.TakeWhile
import HopRouting.Proofs.PropertySet.LogicalLines
import HopRouting.Proofs.PropertySet.Written

/-!
# Escaped characters of entries

`marks` reads a text as the characters that it shows, each plain or escaped, and resolving the
escapes of a text gives what its marks mean (`unescape_eq`).  An entry keeps its escaped characters
if each of them is found, resolved, in the key or the value, and if no marks are missing there but
plain blanks at the ends and a pair of plain quotes: `KeyKeeps` and `ValueKeeps`.

**Loss.**  Blanks and quotes are taken off before escapes are resolved, and a blank or a quote is
taken off whether or not it is escaped.  The backslash before it then ends the text, where it
escapes nothing and is dropped.

**Result.**  `keeps_iff`: the key and the value keep what is escaped in them exactly if what is left
of each does not end in such a backslash; `not_keeps` shows a line on which the key does not.
-/

namespace HopRouting

namespace PropertySet

section Marks

/-- A character of a text, as it is or after a backslash. -/
inductive Mark where
  | plain (c : Char)
  | escaped (c : Char)
  deriving DecidableEq

namespace Mark

/-- The character that the mark stands for. -/
def meaning : Mark → Char
  | plain c => c
  | escaped c => PropertySet.escaped c

/-- Whether the mark is a blank that is not escaped. -/
def isBlank : Mark → Bool
  | plain c => Text.isBlank c
  | escaped _ => false

end Mark

/-- The marks of a text.  A backslash that ends it escapes nothing. -/
def marks : List Char → List Mark
  | '\\' :: c :: rest => .escaped c :: marks rest
  | ['\\'] => []
  | c :: rest => .plain c :: marks rest
  | [] => []

theorem marks_cons_of_ne
    {c : Char}
    (hne : c ≠ '\\')
    (rest : List Char) :
    marks (c :: rest) = .plain c :: marks rest := by
  conv_lhs => unfold marks
  split <;> simp_all

/-- A text is empty or a lone backslash, or else it begins with an escaped or a plain character. -/
@[elab_as_elim]
theorem marks_induction
    {motive : List Char → Prop}
    (nil : motive [])
    (lone : motive ['\\'])
    (pair : ∀ c rest, motive rest → motive ('\\' :: c :: rest))
    (plain : ∀ c rest, c ≠ '\\' → motive rest → motive (c :: rest))
    (text : List Char) :
    motive text := by
  induction text using marks.induct with
  | case1 c rest ih =>
      exact pair c rest ih
  | case2 =>
      exact lone
  | case3 c rest hpair hlone ih =>
      apply plain c rest _ ih
      rintro rfl
      cases rest with
      | nil => exact hlone rfl rfl
      | cons next rest => exact hpair next rest rfl rfl
  | case4 =>
      exact nil

/-- Resolving the escapes of a text gives what its marks mean. -/
theorem unescape_eq
    (text : List Char) :
    unescape text = (marks text).map Mark.meaning := by
  induction text using marks_induction with
  | nil => rfl
  | lone => rfl
  | pair c rest ih => rw [unescape, marks, List.map_cons, ih]; rfl
  | plain c rest hne ih =>
      rw [unescape_cons_of_ne hne, marks_cons_of_ne hne, List.map_cons, ih]
      rfl

/-- The marks of two texts stand one after the other, unless the first one escapes into the
second. -/
theorem marks_append
    {text : List Char}
    (htext : ¬ Escapes text)
    (more : List Char) :
    marks (text ++ more) = marks text ++ marks more := by
  induction text using marks_induction with
  | nil => rfl
  | lone => exact absurd (by decide) htext
  | pair c rest ih =>
      have hpair : ¬ Escapes ['\\', c] := by
        rw [show ['\\', c] = ['\\'] ++ [c] from rfl, escapes_append_singleton_iff]
        exact fun hboth => hboth.2 (by decide)
      have hrest : ¬ Escapes rest := by
        rwa [← escapes_append_iff hpair]
      rw [List.cons_append, List.cons_append, marks, marks, ih hrest, List.cons_append]
  | plain c rest hne ih =>
      have hplain : ¬ Escapes [c] := by
        rw [← List.nil_append [c], escapes_append_singleton_iff]
        exact fun hboth => hne hboth.1
      have hrest : ¬ Escapes rest := by
        rwa [← escapes_append_iff hplain]
      rw [List.cons_append, marks_cons_of_ne hne, marks_cons_of_ne hne, ih hrest,
        List.cons_append]

theorem not_escapes_of_not_mem
    {text : List Char}
    (hnone : '\\' ∉ text) :
    ¬ Escapes text := by
  intro hescapes
  obtain ⟨htext, -⟩ := hescapes.exists_eq
  rw [htext] at hnone
  simp at hnone

theorem marks_of_not_mem
    {text : List Char}
    (hnone : '\\' ∉ text) :
    marks text = text.map .plain := by
  induction text with
  | nil =>
      rfl
  | cons c rest ih =>
      rw [List.mem_cons, not_or] at hnone
      rw [marks_cons_of_ne (Ne.symm hnone.1), ih hnone.2, List.map_cons]

/-- The backslash that a text ends in escapes the character after it, and shows in no mark of the
text. -/
theorem Escapes.marks_append_cons
    {text : List Char}
    (hescapes : Escapes text)
    (c : Char)
    (more : List Char) :
    marks (text ++ c :: more) = marks text ++ .escaped c :: marks more := by
  obtain ⟨htext, hbefore⟩ := hescapes.exists_eq
  have hmarks : marks text = marks text.dropLast := by
    conv_lhs => rw [htext, marks_append hbefore]
    exact List.append_nil _
  conv_lhs => rw [htext, List.append_assoc, marks_append hbefore]
  rw [hmarks]
  rfl

end Marks

section Blanks

theorem slash_not_mem_of_blank
    {text : List Char}
    (hblank : ∀ c ∈ text, Text.isBlank c = true) :
    '\\' ∉ text := by
  intro hmem
  cases hblank _ hmem

theorem isBlank_of_mem_map_plain
    {text : List Char}
    (hblank : ∀ c ∈ text, Text.isBlank c = true) :
    ∀ mark ∈ text.map Mark.plain, mark.isBlank = true := by
  intro mark hmark
  obtain ⟨c, hc, rfl⟩ := List.mem_map.mp hmark
  exact hblank c hc

theorem marks_trimStart
    (text : List Char) :
    marks (Text.trimStart text) = (marks text).dropWhile Mark.isBlank := by
  induction text using marks_induction with
  | nil => rfl
  | lone => rfl
  | pair c rest ih => rfl
  | plain c rest hne ih =>
      rw [marks_cons_of_ne hne, Text.trimStart, List.dropWhile_cons, List.dropWhile_cons,
        Mark.isBlank]
      split
      · exact ih
      · exact marks_cons_of_ne hne rest

/-- Trimming takes plain blanks off the end of a text, and the first of what it takes off may have
been escaped. -/
theorem marks_trimEnd
    {text : List Char}
    (htext : ¬ Escapes text) :
    ∃ back, (∀ mark ∈ back, mark.isBlank = true) ∧
      ((¬ Escapes (Text.trimEnd text) ∧ marks text = marks (Text.trimEnd text) ++ back) ∨
        (Escapes (Text.trimEnd text) ∧
          ∃ c, marks text = marks (Text.trimEnd text) ++ .escaped c :: back)) := by
  obtain ⟨blanks, hsplit, hblank⟩ := Text.exists_trimEnd text
  by_cases hescapes : Escapes (Text.trimEnd text)
  · cases blanks with
    | nil =>
        rw [List.append_nil] at hsplit
        rw [hsplit] at htext
        exact absurd hescapes htext
    | cons c blanks =>
        have hrest : ∀ other ∈ blanks, Text.isBlank other = true := fun other hother =>
          hblank other (List.mem_cons_of_mem _ hother)
        refine ⟨blanks.map .plain, isBlank_of_mem_map_plain hrest, Or.inr ⟨hescapes, c, ?_⟩⟩
        conv_lhs => rw [hsplit, hescapes.marks_append_cons,
          marks_of_not_mem (slash_not_mem_of_blank hrest)]
  · refine ⟨blanks.map .plain, isBlank_of_mem_map_plain hblank, Or.inl ⟨hescapes, ?_⟩⟩
    conv_lhs => rw [hsplit, marks_append hescapes,
      marks_of_not_mem (slash_not_mem_of_blank hblank)]

end Blanks

section Kept

/-- The marks without the assignment sign that they begin with. -/
def pastAssignment : List Mark → List Mark
  | .plain '=' :: rest => rest
  | .plain ':' :: rest => rest
  | rest => rest

/-- The marks of the value, with quotes and blanks after it.  The separator and blanks around it
stand before. -/
def pastSeparator (after : List Mark) : List Mark :=
  (pastAssignment (after.dropWhile Mark.isBlank)).dropWhile Mark.isBlank

/-- The key keeps what is escaped before the separator.  Only plain blanks at the ends are
missing. -/
structure KeyKeeps (before : List Char) (key : String) : Prop where
  appears : ∀ c, Mark.escaped c ∈ marks before → escaped c ∈ key.toList
  trimmed :
    ∃ front kept back,
      marks before = front ++ kept ++ back ∧
      (∀ mark ∈ front ++ back, mark.isBlank = true) ∧
      key.toList = kept.map Mark.meaning

/-- The value keeps what is escaped after the separator.  Only a pair of plain quotes and plain
blanks at the end are missing. -/
structure ValueKeeps (after : List Char) (value : String) : Prop where
  appears : ∀ c, Mark.escaped c ∈ marks after → escaped c ∈ value.toList
  trimmed :
    ∃ quote kept back,
      pastSeparator (marks after) = quote ++ kept ++ quote ++ back ∧
      (quote = [] ∨ quote = [.plain '"']) ∧
      (∀ mark ∈ back, mark.isBlank = true) ∧
      value.toList = kept.map Mark.meaning

theorem escaped_mem_of_kept
    {read front kept back : List Mark} {c : Char}
    (hread : read = front ++ kept ++ back)
    (hfront : Mark.escaped c ∉ front)
    (hback : Mark.escaped c ∉ back)
    (hmem : Mark.escaped c ∈ read) :
    escaped c ∈ kept.map Mark.meaning := by
  rw [hread, List.mem_append, List.mem_append] at hmem
  rcases hmem with (hmem | hmem) | hmem
  · exact absurd hmem hfront
  · exact List.mem_map_of_mem hmem
  · exact absurd hmem hback

theorem escaped_not_mem_of_blank
    {read : List Mark}
    (hblank : ∀ mark ∈ read, mark.isBlank = true)
    (c : Char) :
    Mark.escaped c ∉ read := by
  intro hmem
  cases hblank _ hmem

/-- If as much is kept as stands before some mark, but that mark is kept too, then more is missing
in front than it was. -/
theorem length_lt_of_kept
    {α : Type} {front kept back start core rest : List α} {item : α}
    (hsame : front ++ kept ++ back = start ++ core ++ item :: rest)
    (hlength : kept.length = core.length)
    (hitem : item ∉ back) :
    start.length < front.length := by
  by_contra hle
  have hshort : (front ++ kept).length ≤ (start ++ core).length := by
    rw [List.length_append, List.length_append, hlength]
    omega
  have hbegins : front ++ kept <+: start ++ core :=
    List.prefix_of_prefix_length_le (List.prefix_append _ back)
      (hsame ▸ List.prefix_append _ (item :: rest)) hshort
  obtain ⟨between, hbetween⟩ := hbegins
  rw [← hbetween, List.append_assoc (front ++ kept), List.append_cancel_left_eq] at hsame
  apply hitem
  rw [hsame]
  simp

end Kept

section Keys

/-- A blank that a line begins with would separate. -/
theorem SplitsAt.trimStart_eq
    {text before after : List Char}
    (hsplit : SplitsAt text before after) :
    Text.trimStart before = before := by
  cases before with
  | nil =>
      rfl
  | cons c rest =>
      apply List.dropWhile_cons_of_neg
      intro hblank
      exact hsplit.first ⟨[], c, rest, rfl, by simp [isSeparator, hblank], not_escapes_nil⟩

theorem keyKeeps_iff
    {text before after : List Char} {key : String}
    (hsplit : SplitsAt text before after)
    (hkey : key.toList = unescape (Text.trim before)) :
    KeyKeeps before key ↔ ¬ Escapes (Text.trim before) := by
  have htrim : Text.trim before = Text.trimEnd before := by
    rw [Text.trim, hsplit.trimStart_eq]
  rw [htrim, unescape_eq] at hkey
  rw [htrim]
  obtain ⟨back, hblank, hcase⟩ := marks_trimEnd hsplit.unescaped
  rcases hcase with ⟨hkept, hmarks⟩ | ⟨hlost, c, hmarks⟩
  · have hends : ∀ mark ∈ [] ++ back, mark.isBlank = true := by
      simpa using hblank
    refine iff_of_true ⟨?_, [], _, back, hmarks, hends, hkey⟩ hkept
    intro c hmem
    have hread : marks before = [] ++ marks (Text.trimEnd before) ++ back := hmarks
    rw [hkey]
    exact escaped_mem_of_kept hread List.not_mem_nil (escaped_not_mem_of_blank hblank c) hmem
  · refine iff_of_false ?_ (not_not.mpr hlost)
    rintro ⟨-, front, kept, back', hread, hends, hkept⟩
    have hlength : kept.length = (marks (Text.trimEnd before)).length := by
      rw [← List.length_map Mark.meaning, ← hkept, hkey, List.length_map]
    have hback : Mark.escaped c ∉ back' := by
      apply escaped_not_mem_of_blank
      intro mark hmark
      exact hends mark (List.mem_append_right _ hmark)
    have hsame :
        front ++ kept ++ back' = [] ++ marks (Text.trimEnd before) ++ .escaped c :: back :=
      hread.symm.trans hmarks
    have hfront := length_lt_of_kept hsame hlength hback
    cases front with
    | nil =>
        exact absurd hfront (Nat.lt_irrefl _)
    | cons mark front =>
        have hhead := marks_trimStart before
        rw [hsplit.trimStart_eq, hread, eq_comm, List.dropWhile_eq_self_iff] at hhead
        exact hhead (by simp) (hends mark (by simp))

end Keys

section Values

/-- What is left of a value before its escapes are resolved. -/
def valueCore (after : List Char) : List Char :=
  unquote (Text.trim (dropAssignment (Text.trimStart after)))

theorem dropAssignment_of_ne
    {c : Char}
    (hequals : c ≠ '=')
    (hcolon : c ≠ ':')
    (rest : List Char) :
    dropAssignment (c :: rest) = c :: rest := by
  unfold dropAssignment
  split <;> simp_all

theorem pastAssignment_of_ne
    {c : Char}
    (hequals : c ≠ '=')
    (hcolon : c ≠ ':')
    (rest : List Mark) :
    pastAssignment (.plain c :: rest) = .plain c :: rest := by
  unfold pastAssignment
  split <;> simp_all

/-- Nothing but an assignment sign, which may be missing, precedes what is left of the text. -/
theorem exists_dropAssignment
    (text : List Char) :
    ∃ sign, text = sign ++ dropAssignment text ∧ '\\' ∉ sign := by
  unfold dropAssignment
  split
  · exact ⟨['='], rfl, by decide⟩
  · exact ⟨[':'], rfl, by decide⟩
  · exact ⟨[], rfl, List.not_mem_nil⟩

theorem marks_dropAssignment
    (text : List Char) :
    marks (dropAssignment text) = pastAssignment (marks text) := by
  cases text using marks_induction with
  | nil => rfl
  | lone => rfl
  | pair c rest => rfl
  | plain c rest hne =>
      rw [marks_cons_of_ne hne]
      by_cases hequals : c = '='
      · rw [hequals]
        rfl
      · by_cases hcolon : c = ':'
        · rw [hcolon]
          rfl
        · rw [dropAssignment_of_ne hequals hcolon, pastAssignment_of_ne hequals hcolon,
            marks_cons_of_ne hne]

/-- The separator and the blanks around it are not escaped and escape nothing. -/
theorem exists_pastSeparator
    {after : List Char}
    (hafter : ¬ Escapes after) :
    ∃ body front : List Char,
      valueCore after = unquote (Text.trimEnd body) ∧
      ¬ Escapes body ∧
      pastSeparator (marks after) = marks body ∧
      marks after = front.map .plain ++ marks body := by
  obtain ⟨blanks, hblanks, hblank⟩ := Text.exists_trimStart after
  obtain ⟨sign, hsign, hplain⟩ := exists_dropAssignment (Text.trimStart after)
  obtain ⟨more, hmore, hblank'⟩ := Text.exists_trimStart (dropAssignment (Text.trimStart after))
  have hfront : '\\' ∉ blanks ++ sign ++ more := by
    simp only [List.mem_append, not_or]
    exact ⟨⟨slash_not_mem_of_blank hblank, hplain⟩, slash_not_mem_of_blank hblank'⟩
  have hwhole :
      after =
        blanks ++ sign ++ more ++ Text.trimStart (dropAssignment (Text.trimStart after)) := by
    rw [List.append_assoc, ← hmore, List.append_assoc, ← hsign, ← hblanks]
  refine ⟨Text.trimStart (dropAssignment (Text.trimStart after)), blanks ++ sign ++ more, rfl,
    ?_, ?_, ?_⟩
  · rwa [hwhole, escapes_append_iff (not_escapes_of_not_mem hfront)] at hafter
  · rw [pastSeparator, marks_trimStart, marks_dropAssignment, marks_trimStart]
  · conv_lhs => rw [hwhole, marks_append (not_escapes_of_not_mem hfront),
      marks_of_not_mem hfront]

/-- Quotes are taken off if the text begins and ends with one. -/
theorem unquote_cases
    (text : List Char) :
    unquote text = text ∨ text = '"' :: (unquote text ++ ['"']) := by
  unfold unquote
  split
  · next rest =>
      split
      · next hlast =>
          obtain ⟨core, rfl⟩ := List.getLast?_eq_some_iff.mp hlast
          rw [List.dropLast_concat]
          exact Or.inr rfl
      · exact Or.inl rfl
  · exact Or.inl rfl

/-- A pair of plain quotes and plain blanks after it are taken off what follows the separator, and
the first of what is taken off at the end may have been escaped. -/
theorem marks_unquote_trimEnd
    {body : List Char}
    (hbody : ¬ Escapes body) :
    ∃ quote back,
      (quote = [] ∨ quote = [.plain '"']) ∧
      (∀ mark ∈ back, mark.isBlank = true) ∧
      ((¬ Escapes (unquote (Text.trimEnd body)) ∧
          marks body = quote ++ marks (unquote (Text.trimEnd body)) ++ quote ++ back) ∨
        (Escapes (unquote (Text.trimEnd body)) ∧
          ∃ c, marks body =
            quote ++ marks (unquote (Text.trimEnd body)) ++ .escaped c :: back)) := by
  obtain ⟨back, hblank, hcase⟩ := marks_trimEnd hbody
  rcases unquote_cases (Text.trimEnd body) with hunquoted | hquoted
  · refine ⟨[], back, Or.inl rfl, hblank, ?_⟩
    rw [hunquoted]
    simpa using hcase
  · have hcloses : ¬ Escapes (Text.trimEnd body) := by
      rw [hquoted, ← List.cons_append, escapes_append_singleton_iff]
      exact fun hboth => absurd hboth.1 (by decide)
    have hmarks : marks body = marks (Text.trimEnd body) ++ back := by
      rcases hcase with ⟨-, hmarks⟩ | ⟨hescapes, -⟩
      · exact hmarks
      · exact absurd hescapes hcloses
    rw [hquoted, marks_cons_of_ne (by decide)] at hmarks
    refine ⟨[.plain '"'], back, Or.inr rfl, hblank, ?_⟩
    by_cases hescapes : Escapes (unquote (Text.trimEnd body))
    · rw [hescapes.marks_append_cons] at hmarks
      refine Or.inr ⟨hescapes, '"', ?_⟩
      rw [hmarks]
      simp [marks]
    · rw [marks_append hescapes, marks_cons_of_ne (by decide)] at hmarks
      refine Or.inl ⟨hescapes, ?_⟩
      rw [hmarks]
      simp [marks]

theorem valueKeeps_iff
    {after : List Char} {value : String}
    (hafter : ¬ Escapes after)
    (hvalue : value.toList = valueText after) :
    ValueKeeps after value ↔ ¬ Escapes (valueCore after) := by
  obtain ⟨body, front, hcore, hbody, hpast, hafter⟩ := exists_pastSeparator hafter
  obtain ⟨quote, back, hquote, hblank, hcase⟩ := marks_unquote_trimEnd hbody
  have hmeaning : value.toList = (marks (valueCore after)).map Mark.meaning := by
    rw [hvalue, ← unescape_eq]
    rfl
  rw [← hcore] at hcase
  rcases hcase with ⟨hkept, hmarks⟩ | ⟨hlost, c, hmarks⟩
  · refine iff_of_true ⟨?_, quote, _, back, hpast.trans hmarks, hquote, hblank, hmeaning⟩ hkept
    intro c hmem
    have hplain : Mark.escaped c ∉ quote := by
      rcases hquote with rfl | rfl <;> simp
    rw [hafter, List.mem_append] at hmem
    have hmem : Mark.escaped c ∈ marks body := by
      rcases hmem with hmem | hmem
      · simp at hmem
      · exact hmem
    rw [hmeaning]
    have hends : Mark.escaped c ∉ quote ++ back := by
      rw [List.mem_append, not_or]
      exact ⟨hplain, escaped_not_mem_of_blank hblank c⟩
    rw [List.append_assoc _ quote back] at hmarks
    exact escaped_mem_of_kept hmarks hplain hends hmem
  · refine iff_of_false ?_ (not_not.mpr hlost)
    rintro ⟨-, quote', kept, back', hread, hquote', hblank', hkept⟩
    rw [hpast, hmarks] at hread
    have hlength : kept.length = (marks (valueCore after)).length := by
      rw [← List.length_map Mark.meaning, ← hkept, hmeaning, List.length_map]
    have hback : Mark.escaped c ∉ quote' ++ back' := by
      rw [List.mem_append, not_or]
      refine ⟨?_, escaped_not_mem_of_blank hblank' c⟩
      rcases hquote' with rfl | rfl <;> simp
    rw [List.append_assoc _ quote' back'] at hread
    have hlonger := length_lt_of_kept hread.symm hlength hback
    rcases hquote' with rfl | rfl
    · exact absurd hlonger (Nat.not_lt_zero _)
    · rcases hquote with rfl | rfl
      · have hcount : ([Mark.plain '"'] ++ kept).length =
            (marks (valueCore after) ++ [Mark.escaped c]).length := by
          simp [hlength, Nat.add_comm]
        have hsplit : [Mark.plain '"'] ++ kept ++ ([Mark.plain '"'] ++ back') =
            marks (valueCore after) ++ [Mark.escaped c] ++ back := by
          rw [← hread]
          simp
        obtain ⟨-, hends⟩ := List.append_inj hsplit hcount
        have hblank := hblank (.plain '"') (by rw [← hends]; simp)
        cases hblank
      · exact absurd hlonger (Nat.lt_irrefl _)

end Values

section Lines

theorem SplitsAt.unique
    {text before after before' after' : List Char}
    (hsplit : SplitsAt text before after)
    (hsplit' : SplitsAt text before' after') :
    before = before' ∧ after = after' := by
  have hsame := splitAtSeparator?_eq_some_iff.mpr hsplit
  rw [splitAtSeparator?_eq_some_iff.mpr hsplit', Option.some_inj, Prod.mk.injEq] at hsame
  exact ⟨hsame.1.symm, hsame.2.symm⟩

/-- The key and the value of a logical line keep what is escaped in them exactly if what is left of
each, before escapes are resolved, does not end in a backslash that has lost its character. -/
theorem keeps_iff
    {text : String} {line : LogicalLine} {key value : String} {before after : List Char}
    (hline : line ∈ logicalLines text)
    (hentry : line.entry = .ok (key, value))
    (hsplit : SplitsAt line.text before after) :
    (KeyKeeps before key ↔ ¬ Escapes (Text.trim before)) ∧
      (ValueKeeps after value ↔ ¬ Escapes (valueCore after)) := by
  obtain ⟨before', after', hsplit', -, hkey, hvalue⟩ := LogicalLine.entry_eq_ok_iff.mp hentry
  obtain ⟨rfl, rfl⟩ := hsplit.unique hsplit'
  have hafter : ¬ Escapes after := by
    have hwhole := (reading_logicalLines_iff.mpr rfl).not_escapes line hline
    rwa [hsplit.text_eq, escapes_append_iff hsplit.unescaped] at hwhole
  constructor
  · apply keyKeeps_iff hsplit
    rw [show key = _ from hkey, String.toList_ofList]
  · apply valueKeeps_iff hafter
    rw [show value = _ from hvalue, String.toList_ofList]

/-- A key that begins with an escaped blank and ends in an escaped backslash, and a value in quotes
that begins with an escaped quote and ends in an escaped blank. -/
theorem keeps_iff_quoted :
    KeyKeeps "\\ k\\\\".toList " k\\" ∧ ValueKeeps " = \"\\\"v\\ \"".toList "\"v " := by
  have hline :
      ⟨1, "\\ k\\\\ = \"\\\"v\\ \"".toList⟩ ∈
        logicalLines "\\ k\\\\ = \"\\\"v\\ \"\n" := by
    decide
  have hentry :
      LogicalLine.entry ⟨1, "\\ k\\\\ = \"\\\"v\\ \"".toList⟩ = .ok (" k\\", "\"v ") := by
    rfl
  have hsplit :
      SplitsAt "\\ k\\\\ = \"\\\"v\\ \"".toList "\\ k\\\\".toList " = \"\\\"v\\ \"".toList :=
    splitAtSeparator?_eq_some_iff.mp (by decide)
  obtain ⟨hkey, hvalue⟩ := keeps_iff hline hentry hsplit
  exact ⟨hkey.mpr (by decide), hvalue.mpr (by decide)⟩

/-- Not every line keeps what is escaped in it: a key loses the escaped blank that it ends in. -/
theorem not_keeps :
    ¬ ∀ (text : String) (line : LogicalLine) (key value : String) (before after : List Char),
        line ∈ logicalLines text →
          line.entry = .ok (key, value) →
            SplitsAt line.text before after →
              KeyKeeps before key ∧ ValueKeeps after value := by
  intro hkeeps
  have hsplit : SplitsAt "a\\ =1".toList "a\\ ".toList "=1".toList :=
    splitAtSeparator?_eq_some_iff.mp (by decide)
  have hkey : KeyKeeps "a\\ ".toList "a" :=
    (hkeeps "a\\ =1\na=2\n" ⟨1, "a\\ =1".toList⟩ "a" "1" _ _ (by decide) (by rfl) hsplit).1
  have hmem := hkey.appears ' ' (by decide)
  exact absurd hmem (by decide)

/-- The keys of the lines differ, but the first one loses a blank, and the other one wins. -/
example :
    (logicalLines "a\\ =1\na=2\n").mapM LogicalLine.entry = .ok [("a", "1"), ("a", "2")] := by
  rfl

end Lines

end PropertySet

end HopRouting
