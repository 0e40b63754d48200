import Mathlib.Data.List.Basic
import Mathlib.Data.List.TakeWhile
import HopRouting.Text.Blank

/-!
# Parts of texts

A text is taken apart by trimming it, by splitting it at commas, or at the first place where a sign
stands.  Each of these has texts that it leaves whole.

**Trimming.**  `Trimmed`: no blank stands at either end of the text.  Trimming gives such a text,
and leaves such a text alone.

**Lists.**  `IsItem`: an item of a comma separated list is trimmed, not empty, and without a comma.
Lists of items are read back from the text in which they are separated by commas
(`commaItems_intercalate`).
-/

namespace HopRouting

namespace Text

section Trimming

/-- The text has no blank at its ends. -/
structure Trimmed (text : List Char) : Prop where
  head : ∀ c, text.head? = some c → isBlank c = false
  last : ∀ c, text.getLast? = some c → isBlank c = false

theorem exists_trimStart
    (text : List Char) :
    ∃ front, text = front ++ trimStart text ∧ ∀ c ∈ front, isBlank c = true := by
  refine ⟨text.takeWhile isBlank, List.takeWhile_append_dropWhile.symm, ?_⟩
  intro c hc
  exact List.mem_takeWhile_imp hc

theorem exists_trimEnd
    (text : List Char) :
    ∃ back, text = trimEnd text ++ back ∧ ∀ c ∈ back, isBlank c = true := by
  obtain ⟨front, hfront, hblank⟩ := exists_trimStart text.reverse
  refine ⟨front.reverse, ?_, ?_⟩
  · rw [← List.reverse_inj, hfront]
    simp [trimEnd, trimStart]
  · intro c hc
    exact hblank c (List.mem_reverse.mp hc)

theorem mem_of_mem_trim
    {text : List Char} {c : Char}
    (hmem : c ∈ trim text) :
    c ∈ text := by
  obtain ⟨front, hfront, -⟩ := exists_trimStart text
  obtain ⟨back, hback, -⟩ := exists_trimEnd (trimStart text)
  rw [hfront, hback]
  exact List.mem_append_right _ (List.mem_append_left _ hmem)

theorem isBlank_of_head?_dropWhile
    (text : List Char) {c : Char}
    (hhead : (text.dropWhile isBlank).head? = some c) :
    isBlank c = false := by
  have hfirst := List.head?_dropWhile_not isBlank text
  rwa [hhead] at hfirst

theorem trimmed_trim
    (text : List Char) :
    Trimmed (trim text) := by
  constructor
  · intro c hhead
    obtain ⟨back, hback, -⟩ := exists_trimEnd (trimStart text)
    apply isBlank_of_head?_dropWhile text
    rw [← trimStart, hback, List.head?_append, ← trim, hhead, Option.some_or]
  · intro c hlast
    apply isBlank_of_head?_dropWhile (trimStart text).reverse
    rwa [trim, trimEnd, List.getLast?_reverse] at hlast

namespace Trimmed

theorem dropWhile_eq
    {text : List Char}
    (hhead : ∀ c, text.head? = some c → isBlank c = false) :
    text.dropWhile isBlank = text := by
  cases text with
  | nil => rfl
  | cons c rest => exact List.dropWhile_cons_of_neg (by simp [hhead c rfl])

theorem trim_eq
    {text : List Char}
    (htext : Trimmed text) :
    trim text = text := by
  have hreverse : ∀ c, text.reverse.head? = some c → isBlank c = false := by
    intro c hc
    rw [List.head?_reverse] at hc
    exact htext.last c hc
  rw [trim, trimStart, dropWhile_eq htext.head, trimEnd, dropWhile_eq hreverse,
    List.reverse_reverse]

/-- What stands between the ends does not matter. -/
theorem append
    {front back : List Char}
    (hfront : Trimmed front)
    (hback : Trimmed back)
    (hfront_ne : front ≠ [])
    (hback_ne : back ≠ [])
    (middle : List Char) :
    Trimmed (front ++ middle ++ back) := by
  constructor
  · intro c hhead
    rw [List.append_assoc, List.head?_append_of_ne_nil _ hfront_ne] at hhead
    exact hfront.head c hhead
  · intro c hlast
    rw [List.getLast?_append_of_ne_nil _ hback_ne] at hlast
    exact hback.last c hlast

end Trimmed

end Trimming

section Lists

theorem not_mem_of_mem_splitOn
    {α : Type} [BEq α] [LawfulBEq α] {sep : α} {items part : List α}
    (hpart : part ∈ items.splitOn sep) :
    sep ∉ part := by
  induction items generalizing part with
  | nil =>
      rw [List.splitOn_nil, List.mem_singleton] at hpart
      rw [hpart]
      exact List.not_mem_nil
  | cons item rest ih =>
      rw [List.splitOn_cons_eq_if_modifyHead] at hpart
      split at hpart
      · rcases List.mem_cons.mp hpart with rfl | hpart
        · exact List.not_mem_nil
        · exact ih hpart
      · next hitem =>
        cases hsplit : rest.splitOn sep with
        | nil =>
            exact absurd hsplit (List.splitOn_ne_nil _ _)
        | cons first others =>
            rw [hsplit] at hpart ih
            rcases List.mem_cons.mp hpart with rfl | hpart
            · rw [List.mem_cons, not_or]
              exact ⟨fun hsep => hitem (by simp [hsep]), ih List.mem_cons_self⟩
            · exact ih (List.mem_cons_of_mem _ hpart)

/-- The text is an item of a comma separated list. -/
structure IsItem (item : String) : Prop where
  ne_empty : item ≠ ""
  trimmed : Trimmed item.toList
  no_comma : ',' ∉ item.toList

namespace IsItem

theorem toList_ne_nil
    {item : String}
    (hitem : IsItem item) :
    item.toList ≠ [] := by
  rw [ne_eq, String.toList_eq_nil_iff]
  exact hitem.ne_empty

/-- What remains of a part of a text is an item, if the text has no comma. -/
theorem of_trim
    {item : String} {part : List Char}
    (hpart : trim part = item.toList)
    (hne : item ≠ "")
    (hcomma : ',' ∉ part) :
    IsItem item where
  ne_empty := hne
  trimmed := hpart ▸ trimmed_trim part
  no_comma := by
    rw [← hpart]
    exact fun hmem => hcomma (mem_of_mem_trim hmem)

/-- Two items with a text between them that has no comma are one item. -/
theorem append
    {item other middle : String}
    (hitem : IsItem item)
    (hother : IsItem other)
    (hmiddle : ',' ∉ middle.toList) :
    IsItem (item ++ middle ++ other) where
  ne_empty := by simp [hitem.ne_empty]
  trimmed := by
    rw [String.toList_append, String.toList_append]
    exact hitem.trimmed.append hother.trimmed hitem.toList_ne_nil hother.toList_ne_nil _
  no_comma := by simp [hitem.no_comma, hmiddle, hother.no_comma]

end IsItem

theorem isItem_of_mem_commaItems
    {text item : String}
    (hmem : item ∈ commaItems text) :
    IsItem item := by
  obtain ⟨kept, hkept, rfl⟩ := List.mem_map.mp hmem
  obtain ⟨hkept, hne⟩ := List.mem_filter.mp hkept
  obtain ⟨part, hpart, rfl⟩ := List.mem_map.mp hkept
  refine .of_trim String.toList_ofList.symm ?_ (not_mem_of_mem_splitOn hpart)
  rw [ne_eq, String.ofList_eq_empty_iff]
  exact of_decide_eq_true hne

/-- Items with commas between them are the items of their text. -/
theorem commaItems_intercalate
    {items : List String}
    (hitems : ∀ item ∈ items, IsItem item) :
    commaItems (",".intercalate items) = items := by
  by_cases hsome : items = []
  · rw [hsome]
    rfl
  · have hcommas : ∀ part ∈ items.map String.toList, ',' ∉ part := by
      intro part hpart
      obtain ⟨item, hitem, rfl⟩ := List.mem_map.mp hpart
      exact (hitems item hitem).no_comma
    have htrim : ∀ item ∈ items, (trim ∘ String.toList) item = item.toList :=
      fun item hitem => (hitems item hitem).trimmed.trim_eq
    have hkept : ∀ part ∈ items.map String.toList, decide (part ≠ []) = true := by
      intro part hpart
      obtain ⟨item, hitem, rfl⟩ := List.mem_map.mp hpart
      exact decide_eq_true (hitems item hitem).toList_ne_nil
    have hsplit :
        (",".intercalate items).toList.splitOn ',' = items.map String.toList := by
      rw [String.toList_intercalate]
      exact List.splitOn_intercalate ',' hcommas (by simpa using hsome)
    have hback : String.ofList ∘ String.toList = id := funext fun item => String.ofList_toList
    rw [commaItems, hsplit, List.map_map, List.map_congr_left htrim,
      List.filter_eq_self.mpr hkept, List.map_map, hback, List.map_id]

end Lists

section Sign

variable {sign : Char}

theorem splitFirst?_nil :
    splitFirst? [sign] [] = none :=
  rfl

theorem splitFirst?_cons_self
    (rest : List Char) :
    splitFirst? [sign] (sign :: rest) = some ([], rest) := by
  simp [splitFirst?, List.isPrefixOf?]

theorem splitFirst?_cons_of_ne
    {c : Char}
    (hne : c ≠ sign)
    (rest : List Char) :
    splitFirst? [sign] (c :: rest) =
      (splitFirst? [sign] rest).map fun split => (c :: split.1, split.2) := by
  conv_lhs => unfold splitFirst?
  simp [List.isPrefixOf?, Ne.symm hne]

/-- A text is taken apart at the first place of a sign, which has none before it. -/
theorem splitFirst?_eq_some_iff
    {text before after : List Char} :
    splitFirst? [sign] text = some (before, after) ↔
      text = before ++ sign :: after ∧ sign ∉ before := by
  induction text generalizing before with
  | nil =>
      simp [splitFirst?_nil]
  | cons c rest ih =>
      by_cases hc : c = sign
      · rw [hc, splitFirst?_cons_self]
        cases before with
        | nil => simp [eq_comm]
        | cons first before =>
            refine iff_of_false (by simp) ?_
            rintro ⟨hsplit, hnone⟩
            exact hnone ((List.cons.inj hsplit).1 ▸ List.mem_cons_self)
      · rw [splitFirst?_cons_of_ne hc]
        cases before with
        | nil => simp [hc]
        | cons first before =>
            rw [Option.map_eq_some_iff, List.cons_append, List.cons.injEq, List.mem_cons, not_or]
            constructor
            · rintro ⟨⟨front, back⟩, hsplit, hsame⟩
              cases hsame
              obtain ⟨hrest, hnone⟩ := ih.mp hsplit
              exact ⟨⟨rfl, hrest⟩, Ne.symm hc, hnone⟩
            · rintro ⟨⟨rfl, hrest⟩, -, hnone⟩
              exact ⟨(before, after), ih.mpr ⟨hrest, hnone⟩, rfl⟩

end Sign

end Text

end HopRouting
