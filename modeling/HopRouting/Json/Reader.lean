import HopRouting.Text.Number

/-!
# Reading JSON

**Input.** A JSON text: one value between blanks, as the standard has it.

**Values.** Of a number only this is kept: its value if it is written with digits alone, and else
that it is some number.  A string that holds half a surrogate pair denotes no text, but it is still
a string.  The members of an object are kept in order, repeated names included.

**Algorithm.** Recursive descent.  Every value takes at least one character, and every nested list
is entered by one, so twice the length of the text bounds the depth of the recursion.
-/

namespace HopRouting

/-- A JSON value. -/
inductive Json where
  | null
  | bool (b : Bool)
  /-- A number written with digits alone. -/
  | natural (n : Nat)
  /-- Any other number. -/
  | number
  /-- A string with its text, which it has unless it holds half a surrogate pair. -/
  | text (content : Option String)
  | array (elements : List Json)
  | object (members : List (Option String × Json))

namespace Json

section Strings

/-- A character of a string, or a code unit that is written as an escape. -/
inductive TextUnit where
  | char (c : Char)
  | escape (code : Nat)

/-- The value of a hexadecimal digit. -/
def hexValue? (c : Char) : Option Nat :=
  if c.isDigit then some (c.toNat - '0'.toNat)
  else if 'a' ≤ c ∧ c ≤ 'f' then some (c.toNat - 'a'.toNat + 10)
  else if 'A' ≤ c ∧ c ≤ 'F' then some (c.toNat - 'A'.toNat + 10)
  else none

/-- The value of hexadecimal digits, read onto `start` from the left. -/
def hexNumber? (start : Nat) : List Char → Option Nat
  | [] => some start
  | c :: rest => (hexValue? c).bind fun d => hexNumber? (16 * start + d) rest

/-- The character that a one-letter escape stands for. -/
def escaped? (c : Char) : Option Char :=
  match c with
  | '"' => some '"'
  | '\\' => some '\\'
  | '/' => some '/'
  | 'b' => some '\x08'
  | 'f' => some '\x0c'
  | 'n' => some '\n'
  | 'r' => some '\r'
  | 't' => some '\t'
  | _ => none

/-- The units of a string up to its closing quote, and what follows the quote. -/
def readUnits? : List Char → Option (List TextUnit × List Char)
  | [] => none
  | '"' :: rest => some ([], rest)
  | '\\' :: 'u' :: a :: b :: c :: d :: rest => do
    let code ← hexNumber? 0 [a, b, c, d]
    let (units, rest) ← readUnits? rest
    pure (.escape code :: units, rest)
  | '\\' :: e :: rest => do
    let c ← escaped? e
    let (units, rest) ← readUnits? rest
    pure (.char c :: units, rest)
  | c :: rest =>
    if c = '\\' ∨ c.toNat < 0x20 then none
    else (readUnits? rest).map fun (units, rest) => (.char c :: units, rest)

/-- Whether a code unit is the first half of a surrogate pair. -/
def isHighSurrogate (code : Nat) : Bool := 0xD800 ≤ code && code < 0xDC00

/-- Whether a code unit is the second half of a surrogate pair. -/
def isLowSurrogate (code : Nat) : Bool := 0xDC00 ≤ code && code < 0xE000

/-- The text of the units, in which surrogates are paired. -/
def textOf? : List TextUnit → Option (List Char)
  | [] => some []
  | .char c :: rest => (textOf? rest).map (c :: ·)
  | .escape high :: .escape low :: rest =>
    if isHighSurrogate high then
      if isLowSurrogate low then
        let code := 0x10000 + (high - 0xD800) * 0x400 + (low - 0xDC00)
        (textOf? rest).map (Char.ofNat code :: ·)
      else none
    else if isLowSurrogate high then none
    else (textOf? (.escape low :: rest)).map (Char.ofNat high :: ·)
  | .escape code :: rest =>
    if isHighSurrogate code || isLowSurrogate code then none
    else (textOf? rest).map (Char.ofNat code :: ·)

/-- A string whose opening quote is read. -/
def readText? (input : List Char) : Option (Option String × List Char) :=
  (readUnits? input).map fun (units, rest) => ((textOf? units).map String.ofList, rest)

end Strings

section Numbers

/-- One digit or more. -/
def readDigits? (input : List Char) : Option (List Char × List Char) :=
  match input.span Char.isDigit with
  | ([], _) => none
  | found => some found

/-- The integer part of a number: no zero is followed by a digit. -/
def readInteger? (input : List Char) : Option (List Char × List Char) :=
  match readDigits? input with
  | some ('0' :: _ :: _, _) => none
  | found => found

/-- What follows the fraction of a number, if there is one. -/
def skipFraction? : List Char → Option (List Char)
  | '.' :: rest => (readDigits? rest).map (·.2)
  | rest => some rest

/-- What follows the digits of an exponent with or without a sign. -/
def skipExponentDigits? : List Char → Option (List Char)
  | '+' :: rest => (readDigits? rest).map (·.2)
  | '-' :: rest => (readDigits? rest).map (·.2)
  | rest => (readDigits? rest).map (·.2)

/-- What follows the exponent of a number, if there is one. -/
def skipExponent? : List Char → Option (List Char)
  | 'e' :: rest => skipExponentDigits? rest
  | 'E' :: rest => skipExponentDigits? rest
  | rest => some rest

/-- A number. -/
def readNumber? (input : List Char) : Option (Json × List Char) := do
  match input with
  | '-' :: rest =>
    let (_, rest) ← readInteger? rest
    pure (.number, ← skipExponent? (← skipFraction? rest))
  | _ =>
    let (digits, afterInteger) ← readInteger? input
    let rest ← skipExponent? (← skipFraction? afterInteger)
    if rest.length = afterInteger.length then
      pure (.natural (← Text.digitsValue? 0 digits), rest)
    else pure (.number, rest)

end Numbers

section Values

/-- Whether a character may stand between the parts of a JSON text. -/
def isBlank (c : Char) : Bool :=
  c = ' ' || c = '\t' || c = '\n' || c = '\r'

/-- What follows the blanks. -/
def skipBlanks (input : List Char) : List Char :=
  input.dropWhile isBlank

mutual

/-- A value. -/
def readValue? : Nat → List Char → Option (Json × List Char)
  | 0, _ => none
  | depth + 1, input =>
    match skipBlanks input with
    | 'n' :: 'u' :: 'l' :: 'l' :: rest => some (.null, rest)
    | 't' :: 'r' :: 'u' :: 'e' :: rest => some (.bool true, rest)
    | 'f' :: 'a' :: 'l' :: 's' :: 'e' :: rest => some (.bool false, rest)
    | '"' :: rest => (readText? rest).map fun (content, rest) => (.text content, rest)
    | '[' :: rest =>
      match skipBlanks rest with
      | ']' :: rest => some (.array [], rest)
      | _ => (readElements? depth rest).map fun (elements, rest) => (.array elements, rest)
    | '\x7b' :: rest =>
      match skipBlanks rest with
      | '\x7d' :: rest => some (.object [], rest)
      | _ => (readMembers? depth rest).map fun (members, rest) => (.object members, rest)
    | rest => readNumber? rest

/-- The elements of an array up to its closing bracket. -/
def readElements? : Nat → List Char → Option (List Json × List Char)
  | 0, _ => none
  | depth + 1, input => do
    let (element, rest) ← readValue? depth input
    match skipBlanks rest with
    | ',' :: rest =>
      let (elements, rest) ← readElements? depth rest
      pure (element :: elements, rest)
    | ']' :: rest => pure ([element], rest)
    | _ => none

/-- The members of an object up to its closing brace. -/
def readMembers? : Nat → List Char → Option (List (Option String × Json) × List Char)
  | 0, _ => none
  | depth + 1, input =>
    match skipBlanks input with
    | '"' :: rest => do
      let (name, rest) ← readText? rest
      match skipBlanks rest with
      | ':' :: rest =>
        let (value, rest) ← readValue? depth rest
        match skipBlanks rest with
        | ',' :: rest =>
          let (members, rest) ← readMembers? depth rest
          pure ((name, value) :: members, rest)
        | '\x7d' :: rest => pure ([(name, value)], rest)
        | _ => none
      | _ => none
    | _ => none

end

/-- The value that a JSON text denotes. -/
def parse? (text : String) : Option Json :=
  let input := text.toList
  match readValue? (2 * input.length + 2) input with
  | some (value, rest) => if skipBlanks rest = [] then some value else none
  | none => none

end Values

end Json

end HopRouting
