import HopRouting.PropertySet.Basic
import HopRouting.Text.Lossy

/-!
# Binary codecs

A codec writes values as bytes and reads them back from the front of a byte list, together with
what follows.  Codecs are built from smaller ones: words, texts, lists, pairs, property sets.

**Words.** A whole number below 251 is one byte.  Greater ones are announced by 251, 252 or 253 and
follow in two, four or eight bytes, the lowest first; 254 and 255 announce nothing.  A reader also
takes forms that are longer than necessary.

**Lengths.** Texts and lists begin with their length, a word.  A property set is the list of its
entries; when it is read, later entries win.
-/

namespace HopRouting

/-- A way to write values as bytes and to read them back. -/
structure Codec (α : Type) where
  encode : α → List UInt8
  /-- The value that the bytes begin with, and the bytes after it. -/
  decode : List UInt8 → Option (α × List UInt8)

namespace Codec

variable {α β : Type}

/-- The lowest `count` bytes of a number, the lowest first. -/
def lowBytes : Nat → Nat → List UInt8
  | 0, _ => []
  | count + 1, n => (n % 256).toUInt8 :: lowBytes count (n / 256)

/-- The number in the first `count` bytes, the lowest first. -/
def readLowBytes : Nat → List UInt8 → Option (Nat × List UInt8)
  | 0, bytes => some (0, bytes)
  | _ + 1, [] => none
  | count + 1, b :: bytes =>
    (readLowBytes count bytes).map fun (n, rest) => (b.toNat + 256 * n, rest)

/-- Writes a word in the shortest of its forms. -/
def encodeWord (n : Nat) : List UInt8 :=
  if n < 251 then [n.toUInt8]
  else if n < 0x10000 then 251 :: lowBytes 2 n
  else if n < 0x100000000 then 252 :: lowBytes 4 n
  else 253 :: lowBytes 8 n

/-- Reads a word in any of its forms. -/
def decodeWord : List UInt8 → Option (Nat × List UInt8)
  | [] => none
  | b :: rest =>
    if b < 251 then some (b.toNat, rest)
    else if b = 251 then readLowBytes 2 rest
    else if b = 252 then readLowBytes 4 rest
    else if b = 253 then readLowBytes 8 rest
    else none

/-- Whole numbers below `2 ^ 64`. -/
def word : Codec Nat := ⟨encodeWord, decodeWord⟩

/-- The first `count` bytes, if there are as many. -/
def takeBytes (count : Nat) (bytes : List UInt8) : Option (List UInt8 × List UInt8) :=
  if count ≤ bytes.length then some (bytes.take count, bytes.drop count) else none

/-- Texts in UTF-8. -/
def text : Codec String where
  encode s := word.encode (Text.bytes s).length ++ Text.bytes s
  decode bytes := do
    let (length, bytes) ← word.decode bytes
    let (content, rest) ← takeBytes length bytes
    pure (← Text.text? content, rest)

/-- Reads as many values as `count` tells. -/
def decodeMany (codec : Codec α) : Nat → List UInt8 → Option (List α × List UInt8)
  | 0, bytes => some ([], bytes)
  | count + 1, bytes => do
    let (value, bytes) ← codec.decode bytes
    let (values, rest) ← decodeMany codec count bytes
    pure (value :: values, rest)

/-- Lists of values. -/
def list (codec : Codec α) : Codec (List α) where
  encode values := word.encode values.length ++ values.flatMap codec.encode
  decode bytes := do
    let (length, bytes) ← word.decode bytes
    decodeMany codec length bytes

/-- Pairs, the first part first. -/
def pair (first : Codec α) (second : Codec β) : Codec (α × β) where
  encode value := first.encode value.1 ++ second.encode value.2
  decode bytes := do
    let (a, bytes) ← first.decode bytes
    let (b, rest) ← second.decode bytes
    pure ((a, b), rest)

/-- Values that are written as others, from which they can be made. -/
def via (codec : Codec α) (toRaw : β → α) (ofRaw : α → β) : Codec β where
  encode value := codec.encode (toRaw value)
  decode bytes := (codec.decode bytes).map fun (raw, rest) => (ofRaw raw, rest)

/-- Property sets, as the list of their entries. -/
def propertySet : Codec PropertySet :=
  (list (pair text text)).via (·.toList) (.ofList ·)

end Codec

end HopRouting
