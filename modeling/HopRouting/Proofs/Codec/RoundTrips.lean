import Mathlib.Algebra.Group.Nat.Defs
import Mathlib.Tactic.SplitIfs
import HopRouting.Codec.Basic

/-!
# Codecs that read back what they write

A value that was written is found again in front of whatever follows it (`Codec.ReadsBack`), and
what is read does not depend on the bytes behind it (`Codec.SelfDelimiting`).  The former is asked
of single values, because lengths and numbers from `2 ^ 64` on have no form; the latter holds of
every codec of this library.

**Parts.**  Both are proved for words, texts, lists, pairs and property sets, each from its parts.

**Results.**
* `ReadsBack.eq_of_append_eq`: two values that are read back are written differently, whatever
  follows them.
* `ReadsBack.decode_eq_none`: a beginning of what was written, other than the whole, is refused.
-/

namespace HopRouting

namespace Codec

variable {α β : Type}

/-- The value is found again in front of whatever follows it. -/
def ReadsBack (codec : Codec α) (value : α) : Prop :=
  ∀ rest, codec.decode (codec.encode value ++ rest) = some (value, rest)

/-- What is read does not depend on the bytes behind it. -/
def SelfDelimiting (codec : Codec α) : Prop :=
  ∀ bytes value rest more,
    codec.decode bytes = some (value, rest) →
      codec.decode (bytes ++ more) = some (value, rest ++ more)

/-- Words are the numbers below this one. -/
def wordLimit : Nat := 2 ^ 64

section Laws

variable {codec : Codec α} {value : α}

theorem ReadsBack.eq_of_append_eq
    {other : α} {rest more : List UInt8}
    (hvalue : codec.ReadsBack value)
    (hother : codec.ReadsBack other)
    (hsame : codec.encode value ++ rest = codec.encode other ++ more) :
    value = other ∧ rest = more := by
  have hread := hvalue rest
  rw [hsame, hother more] at hread
  obtain ⟨rfl, rfl⟩ := Prod.mk.inj (Option.some.inj hread)
  exact ⟨rfl, rfl⟩

theorem ReadsBack.decode_eq_none
    (hvalue : codec.ReadsBack value)
    (hcodec : codec.SelfDelimiting)
    {bytes : List UInt8}
    (hcut : bytes <+: codec.encode value)
    (hshort : bytes ≠ codec.encode value) :
    codec.decode bytes = none := by
  obtain ⟨missing, hwhole⟩ := hcut
  cases hread : codec.decode bytes with
  | none => rfl
  | some found =>
      obtain ⟨other, rest⟩ := found
      have hmore := hcodec bytes other rest missing hread
      have hall := hvalue []
      rw [List.append_nil, ← hwhole, hmore] at hall
      obtain ⟨-, hnothing⟩ := Prod.mk.inj (Option.some.inj hall)
      obtain ⟨-, rfl⟩ := List.append_eq_nil_iff.mp hnothing
      rw [List.append_nil] at hwhole
      exact absurd hwhole hshort

end Laws

section Words

theorem readLowBytes_lowBytes
    {count n : Nat}
    (hn : n < 256 ^ count)
    (rest : List UInt8) :
    readLowBytes count (lowBytes count n ++ rest) = some (n, rest) := by
  induction count generalizing n with
  | zero =>
      have hzero : n = 0 := by simpa using hn
      rw [hzero]
      rfl
  | succ count ih =>
      have hhigh : n / 256 < 256 ^ count := by
        rw [Nat.div_lt_iff_lt_mul (by decide)]
        rwa [Nat.pow_succ] at hn
      have hlow : (n % 256).toUInt8.toNat = n % 256 := by simp
      have hwhole : n % 256 + 256 * (n / 256) = n := Nat.mod_add_div n 256
      simp only [lowBytes, List.cons_append, readLowBytes, ih hhigh, Option.map_some, hlow, hwhole]

theorem readLowBytes_append
    {count n : Nat} {bytes rest : List UInt8}
    (hread : readLowBytes count bytes = some (n, rest))
    (more : List UInt8) :
    readLowBytes count (bytes ++ more) = some (n, rest ++ more) := by
  induction count generalizing bytes n with
  | zero =>
      cases hread
      rfl
  | succ count ih =>
      cases bytes with
      | nil =>
          cases hread
      | cons b bytes =>
          rw [readLowBytes, Option.map_eq_some_iff] at hread
          obtain ⟨⟨high, left⟩, hhigh, heq⟩ := hread
          cases heq
          rw [List.cons_append, readLowBytes, ih hhigh, Option.map_some]

theorem word_readsBack
    {n : Nat}
    (hn : n < wordLimit) :
    word.ReadsBack n := by
  intro rest
  show decodeWord (encodeWord n ++ rest) = some (n, rest)
  unfold encodeWord
  split_ifs with hbyte htwo hfour
  · have hn : n.toUInt8.toNat = n := by simp; omega
    have hlt : n.toUInt8 < 251 := by
      rw [UInt8.lt_iff_toNat_lt, hn]
      exact hbyte
    rw [List.singleton_append, decodeWord, if_pos hlt, hn]
  · exact readLowBytes_lowBytes htwo rest
  · exact readLowBytes_lowBytes hfour rest
  · exact readLowBytes_lowBytes hn rest

theorem word_selfDelimiting : word.SelfDelimiting := by
  intro bytes n rest more hread
  cases bytes with
  | nil =>
      cases hread
  | cons b bytes =>
      simp only [word, List.cons_append, decodeWord] at hread ⊢
      split_ifs at hread ⊢ with hbyte htwo hfour hlong
      · cases hread
        rfl
      · exact readLowBytes_append hread more
      · exact readLowBytes_append hread more
      · exact readLowBytes_append hread more

end Words

section Texts

theorem length_bytes
    (s : String) :
    (Text.bytes s).length = s.utf8ByteSize := by
  rfl

theorem text_readsBack
    {s : String}
    (hs : s.utf8ByteSize < wordLimit) :
    text.ReadsBack s := by
  intro rest
  have htake :
      takeBytes (Text.bytes s).length (Text.bytes s ++ rest) = some (Text.bytes s, rest) := by
    simp [takeBytes]
  have hlength := word_readsBack hs (Text.bytes s ++ rest)
  rw [← length_bytes] at hlength
  simp [text, hlength, htake]

theorem takeBytes_append
    {count : Nat} {bytes content rest : List UInt8}
    (htake : takeBytes count bytes = some (content, rest))
    (more : List UInt8) :
    takeBytes count (bytes ++ more) = some (content, rest ++ more) := by
  unfold takeBytes at htake ⊢
  split_ifs at htake with henough
  cases htake
  rw [if_pos (by rw [List.length_append]; omega), List.take_append_of_le_length henough,
    List.drop_append_of_le_length henough]

theorem text_selfDelimiting : text.SelfDelimiting := by
  intro bytes s rest more hread
  simp only [text, Option.bind_eq_bind, Option.bind_eq_some_iff] at hread ⊢
  obtain ⟨⟨length, after⟩, hlength, ⟨content, left⟩, hcontent, found, hfound, hresult⟩ := hread
  cases hresult
  exact ⟨_, word_selfDelimiting _ _ _ more hlength, _, takeBytes_append hcontent more, _, hfound,
    rfl⟩

end Texts

section Pairs

variable {first : Codec α} {second : Codec β}

theorem pair_readsBack
    {value : α × β}
    (hfirst : first.ReadsBack value.1)
    (hsecond : second.ReadsBack value.2) :
    (first.pair second).ReadsBack value := by
  intro rest
  have hread := hfirst (second.encode value.2 ++ rest)
  simp [pair, hread, hsecond rest]

theorem pair_selfDelimiting
    (hfirst : first.SelfDelimiting)
    (hsecond : second.SelfDelimiting) :
    (first.pair second).SelfDelimiting := by
  intro bytes value rest more hread
  simp only [pair, Option.bind_eq_bind, Option.bind_eq_some_iff] at hread ⊢
  obtain ⟨⟨a, after⟩, ha, ⟨b, left⟩, hb, hresult⟩ := hread
  cases hresult
  exact ⟨_, hfirst _ _ _ more ha, _, hsecond _ _ _ more hb, rfl⟩

end Pairs

section Via

variable {codec : Codec α} {toRaw : β → α} {ofRaw : α → β}

theorem via_readsBack
    {value : β}
    (hraw : codec.ReadsBack (toRaw value))
    (hback : ofRaw (toRaw value) = value) :
    (codec.via toRaw ofRaw).ReadsBack value := by
  intro rest
  simp only [via, hraw rest, Option.map_some, hback]

theorem via_selfDelimiting
    (hcodec : codec.SelfDelimiting) :
    (codec.via toRaw ofRaw).SelfDelimiting := by
  intro bytes value rest more hread
  simp only [via, Option.map_eq_some_iff] at hread ⊢
  obtain ⟨⟨raw, left⟩, hraw, hresult⟩ := hread
  cases hresult
  exact ⟨_, hcodec _ _ _ more hraw, rfl⟩

end Via

section Lists

variable {codec : Codec α}

theorem decodeMany_encode
    {values : List α}
    (hvalues : ∀ value ∈ values, codec.ReadsBack value)
    (rest : List UInt8) :
    decodeMany codec values.length (values.flatMap codec.encode ++ rest) =
      some (values, rest) := by
  induction values with
  | nil =>
      rfl
  | cons value values ih =>
      have hrest := ih fun other hother => hvalues other (List.mem_cons_of_mem _ hother)
      have hvalue := hvalues value List.mem_cons_self (values.flatMap codec.encode ++ rest)
      simp [decodeMany, hvalue, hrest]

theorem decodeMany_append
    (hcodec : codec.SelfDelimiting)
    {count : Nat} {bytes rest : List UInt8} {values : List α}
    (hread : decodeMany codec count bytes = some (values, rest))
    (more : List UInt8) :
    decodeMany codec count (bytes ++ more) = some (values, rest ++ more) := by
  induction count generalizing bytes values with
  | zero =>
      cases hread
      rfl
  | succ count ih =>
      simp only [decodeMany, Option.bind_eq_bind, Option.bind_eq_some_iff] at hread ⊢
      obtain ⟨⟨value, after⟩, hvalue, ⟨others, left⟩, hothers, hresult⟩ := hread
      cases hresult
      exact ⟨_, hcodec _ _ _ more hvalue, _, ih hothers, rfl⟩

theorem list_readsBack
    {values : List α}
    (hlength : values.length < wordLimit)
    (hvalues : ∀ value ∈ values, codec.ReadsBack value) :
    (list codec).ReadsBack values := by
  intro rest
  have hword := word_readsBack hlength (values.flatMap codec.encode ++ rest)
  simp [list, hword, decodeMany_encode hvalues rest]

theorem list_selfDelimiting
    (hcodec : codec.SelfDelimiting) :
    (list codec).SelfDelimiting := by
  intro bytes values rest more hread
  simp only [list, Option.bind_eq_bind, Option.bind_eq_some_iff] at hread ⊢
  obtain ⟨⟨length, after⟩, hlength, hvalues⟩ := hread
  exact ⟨_, word_selfDelimiting _ _ _ more hlength, decodeMany_append hcodec hvalues more⟩

end Lists

section PropertySets

theorem ofList_toList
    (properties : PropertySet) :
    Std.ExtTreeMap.ofList properties.toList = properties := by
  apply Std.ExtTreeMap.ext_getElem?
  intro key
  cases hheld : properties[key]? with
  | none =>
      apply Std.ExtTreeMap.getElem?_ofList_of_contains_eq_false
      rw [Bool.eq_false_iff, ne_eq, List.contains_iff_mem, Std.ExtTreeMap.map_fst_toList_eq_keys,
        Std.ExtTreeMap.mem_keys, Std.ExtTreeMap.mem_iff_isSome_getElem?, hheld]
      exact Bool.false_ne_true
  | some value =>
      apply Std.ExtTreeMap.getElem?_ofList_of_mem Std.ReflCmp.compare_self
        properties.distinct_keys_toList
      exact Std.ExtTreeMap.mem_toList_iff_getElem?_eq_some.mpr hheld

theorem propertySet_readsBack
    {properties : PropertySet}
    (hsize : properties.size < wordLimit)
    (hentries :
      ∀ entry ∈ properties.toList,
        entry.1.utf8ByteSize < wordLimit ∧ entry.2.utf8ByteSize < wordLimit) :
    propertySet.ReadsBack properties := by
  apply via_readsBack
  · apply list_readsBack
    · rwa [Std.ExtTreeMap.length_toList]
    · intro entry hentry
      obtain ⟨hkey, hvalue⟩ := hentries entry hentry
      exact pair_readsBack (text_readsBack hkey) (text_readsBack hvalue)
  · exact ofList_toList properties

theorem propertySet_selfDelimiting : propertySet.SelfDelimiting :=
  via_selfDelimiting (list_selfDelimiting (pair_selfDelimiting text_selfDelimiting
    text_selfDelimiting))

end PropertySets

end Codec

end HopRouting
