import Mathlib.Tactic.SplitIfs
import HopRouting.Text.Lossy

/-!
# Bytes of texts

The bytes of a text are those of its characters, one after the other.  A sign of ASCII has one byte,
and no other character has this byte among its own, so that the sign is found in a text where its
byte is found among the bytes of the text (`byteOf_mem_bytes_iff`).
-/

namespace HopRouting

namespace Text

/-- The byte of a sign, if this is one of ASCII. -/
def byteOf (sign : Char) : UInt8 :=
  .ofNat sign.toNat

theorem byteOf_mem_utf8EncodeChar_iff
    (sign : Char) {letter : Char}
    (hsign : sign.toNat < 0x80) :
    byteOf sign ∈ String.utf8EncodeChar letter ↔ letter = sign := by
  have hbyte : ∀ n : Nat, byteOf sign = UInt8.ofNat n ↔ sign.toNat = n % 256 := by
    intro n
    rw [← UInt8.toNat_inj, byteOf, UInt8.toNat_ofNat', UInt8.toNat_ofNat']
    omega
  have hcode : letter = sign ↔ letter.val.toNat = sign.toNat := by
    rw [← Char.toNat_inj]
    rfl
  rw [hcode]
  unfold String.utf8EncodeChar
  dsimp only
  split_ifs with hone htwo hthree
  · rw [List.mem_singleton, hbyte]
    omega
  · simp only [List.mem_cons, List.not_mem_nil, or_false, hbyte]
    omega
  · simp only [List.mem_cons, List.not_mem_nil, or_false, hbyte]
    omega
  · simp only [List.mem_cons, List.not_mem_nil, or_false, hbyte]
    omega

theorem bytes_ofList
    (letters : List Char) :
    bytes (String.ofList letters) = letters.flatMap String.utf8EncodeChar := by
  rw [bytes, String.toUTF8_eq_toByteArray, String.toByteArray_ofList, List.utf8Encode,
    List.toList_data_toByteArray]

theorem bytes_eq
    (text : String) :
    bytes text = text.toList.flatMap String.utf8EncodeChar := by
  rw [← bytes_ofList, String.ofList_toList]

theorem bytes_inj
    (text other : String) :
    bytes text = bytes other ↔ text = other := by
  constructor
  · intro hbytes
    exact String.toByteArray_inj.mp (ByteArray.ext (Array.toList_inj.mp hbytes))
  · rintro rfl
    rfl

theorem bytes_ofList_inj
    (letters others : List Char) :
    bytes (String.ofList letters) = bytes (String.ofList others) ↔ letters = others :=
  (bytes_inj _ _).trans String.ofList_inj

theorem bytes_append
    (text other : String) :
    bytes (text ++ other) = bytes text ++ bytes other := by
  simp only [bytes_eq, String.toList_append, List.flatMap_append]

/-- A sign stands in a text where its byte stands. -/
theorem byteOf_mem_bytes_iff
    (sign : Char) {text : String}
    (hsign : sign.toNat < 0x80) :
    byteOf sign ∈ bytes text ↔ sign ∈ text.toList := by
  simp only [bytes_eq, List.mem_flatMap, byteOf_mem_utf8EncodeChar_iff sign hsign, exists_eq_right]

end Text

end HopRouting
