/-!
# Blank characters

The blank characters are those with the Unicode property `White_Space`, and text is trimmed by
removing them at both ends.  The property is wider than `Char.isWhitespace`, which knows the
ASCII part only (`isBlank_of_isWhitespace`).
-/

namespace HopRouting.Text

/-- The characters with the Unicode property `White_Space`. -/
def isBlank (c : Char) : Bool :=
  let n := c.toNat
  (0x09 ≤ n && n ≤ 0x0D) || n == 0x20 || n == 0x85 || n == 0xA0 || n == 0x1680 ||
    (0x2000 ≤ n && n ≤ 0x200A) || n == 0x2028 || n == 0x2029 || n == 0x202F || n == 0x205F ||
    n == 0x3000

/-- The text without the blanks it begins with. -/
def trimStart (text : List Char) : List Char :=
  text.dropWhile isBlank

/-- The text without the blanks it ends with. -/
def trimEnd (text : List Char) : List Char :=
  (text.reverse.dropWhile isBlank).reverse

/-- The text without the blanks at either end. -/
def trim (text : List Char) : List Char :=
  trimEnd (trimStart text)

/-- The string without the blanks at either end. -/
def trimmed (text : String) : String :=
  String.ofList (trim text.toList)

/-- The items of a comma separated list: each is trimmed, and empty items are dropped. -/
def commaItems (text : String) : List String :=
  (((text.toList.splitOn ',').map trim).filter (· ≠ [])).map String.ofList

/-- The text before and after the first place where `separator` stands. -/
def splitFirst? (separator : List Char) (text : List Char) : Option (List Char × List Char) :=
  match separator.isPrefixOf? text, text with
  | some rest, _ => some ([], rest)
  | none, [] => none
  | none, c :: rest => (splitFirst? separator rest).map fun (before, after) => (c :: before, after)

/-- Every white space character of ASCII is blank. -/
theorem isBlank_of_isWhitespace {c : Char} (h : c.isWhitespace = true) : isBlank c = true := by
  simp only [Char.isWhitespace, Bool.or_eq_true, decide_eq_true_eq] at h
  rcases h with ((rfl | rfl) | rfl) | rfl <;> decide

@[simp] theorem trim_nil : trim [] = [] := rfl

end HopRouting.Text
