/-!
# Whole numbers in text

A machine word is a whole number below `2 ^ 64`.  Its text is an optional plus sign followed by
at least one decimal digit; leading zeros are allowed, and a number that does not fit is no word.
-/

namespace HopRouting.Text

/-- One more than the greatest machine word, `2 ^ 64`. -/
def wordBound : Nat := 0x10000000000000000

/-- The number that a list of decimal digits denotes, read onto `start` from the left. -/
def digitsValue? (start : Nat) : List Char → Option Nat
  | [] => some start
  | c :: rest => if c.isDigit then digitsValue? (10 * start + (c.toNat - '0'.toNat)) rest else none

/-- The digits of a number that may be written with a plus sign. -/
def unsigned : List Char → List Char
  | '+' :: digits => digits
  | digits => digits

/-- The machine word that the text denotes, if it denotes one. -/
def word? (text : String) : Option Nat :=
  match unsigned text.toList with
  | [] => none
  | digits => (digitsValue? 0 digits).filter (· < wordBound)

end HopRouting.Text
