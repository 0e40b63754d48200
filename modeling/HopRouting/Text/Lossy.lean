/-!
# Bytes shown as text

`text?` reads bytes as UTF-8 and refuses ill-formed ones; `shown` never refuses.  It writes one
replacement character for each maximal ill-formed part: a byte that starts no character, or the
beginning of a character that its continuation bytes do not complete.
-/

namespace HopRouting.Text

/-- The bytes of a text. -/
def bytes (text : String) : List UInt8 :=
  text.toUTF8.data.toList

/-- The text that well-formed UTF-8 bytes denote. -/
def text? (bytes : List UInt8) : Option String :=
  String.fromUTF8? ⟨bytes.toArray⟩

/-- What the first byte of a character announces. -/
structure Lead where
  /-- Number of continuation bytes that complete the character. -/
  owed : Nat
  /-- Least value of the first continuation byte. -/
  low : UInt8 := 0x80
  /-- Greatest value of the first continuation byte. -/
  high : UInt8 := 0xBF

/-- The announcement of a first byte; `none` for a byte that starts no character. -/
def lead? (b : UInt8) : Option Lead :=
  if b < 0x80 then some { owed := 0 }
  else if b < 0xC2 then none
  else if b < 0xE0 then some { owed := 1 }
  else if b = 0xE0 then some { owed := 2, low := 0xA0 }
  else if b = 0xED then some { owed := 2, high := 0x9F }
  else if b < 0xF0 then some { owed := 2 }
  else if b = 0xF0 then some { owed := 3, low := 0x90 }
  else if b < 0xF4 then some { owed := 3 }
  else if b = 0xF4 then some { owed := 3, high := 0x8F }
  else none

/-- The number of continuation bytes, at most `owed`, that the list starts with. -/
def continued (lead : Lead) : List UInt8 → Nat
  | [] => 0
  | b :: rest =>
    match lead.owed with
    | 0 => 0
    | owed + 1 => if lead.low ≤ b && b ≤ lead.high then 1 + continued { owed } rest else 0

/-- What stands for the bytes of one character, complete or not. -/
def shownUnit (lead : Lead) (unit : List UInt8) : List Char :=
  match text? unit with
  | some text => if unit.length = lead.owed + 1 then text.toList else ['\uFFFD']
  | none => ['\uFFFD']

/-- The text of the bytes, with a replacement character for every maximal ill-formed part. -/
def shownChars : List UInt8 → List Char
  | [] => []
  | b :: rest =>
    match lead? b with
    | none => '\uFFFD' :: shownChars rest
    | some lead =>
      let tail := continued lead rest
      shownUnit lead (b :: rest.take tail) ++ shownChars (rest.drop tail)
termination_by bytes => bytes.length
decreasing_by all_goals simp only [List.length_cons, List.length_drop]; omega

/-- The bytes as text: exact when they are UTF-8, and readable in any case. -/
def shown (bytes : List UInt8) : String :=
  match text? bytes with
  | some text => text
  | none => String.ofList (shownChars bytes)

/-- The bytes of a text denote that text. -/
@[simp] theorem text?_bytes (text : String) : text? (bytes text) = some text := by
  simp only [text?, bytes, String.fromUTF8?, String.toUTF8_eq_toByteArray, Array.toArray_toList,
    dif_pos text.isValidUTF8]
  rfl

end HopRouting.Text
