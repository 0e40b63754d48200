import HopRouting.Proofs.Codec.RoundTrips
import HopRouting.Proofs.PropertySet.LogicalLines

/-!
# What codecs read

`Codec.Yields` bounds what a codec can read: whatever bytes it is given, a value that it finds has
the property.  Like the laws of what was written, this is proved for words, texts, lists, pairs and
property sets, each from its parts.

**Use.**  A codec that yields only values that are read back (`Codec.ReadsBack`) reads exactly what
it can write.
-/

namespace HopRouting

namespace Codec

variable {α β : Type}

/-- Whatever is read has the property. -/
def Yields (codec : Codec α) (P : α → Prop) : Prop :=
  ∀ bytes value rest, codec.decode bytes = some (value, rest) → P value

section Words

theorem lt_of_readLowBytes
    {count n : Nat} {bytes rest : List UInt8}
    (hread : readLowBytes count bytes = some (n, rest)) :
    n < 256 ^ count := by
  induction count generalizing bytes n with
  | zero =>
      cases hread
      decide
  | succ count ih =>
      cases bytes with
      | nil =>
          cases hread
      | cons b bytes =>
          rw [readLowBytes, Option.map_eq_some_iff] at hread
          obtain ⟨⟨high, left⟩, hhigh, heq⟩ := hread
          cases heq
          have hbyte := b.toNat_lt
          have hbound := ih hhigh
          rw [Nat.pow_succ]
          omega

theorem word_yields : word.Yields (· < wordLimit) := by
  intro bytes n rest hread
  have hlong : ∀ {count : Nat} {after : List UInt8}, count ≤ 8 →
      readLowBytes count after = some (n, rest) → n < wordLimit := by
    intro count after hcount hafter
    calc n < 256 ^ count := lt_of_readLowBytes hafter
      _ ≤ 256 ^ 8 := Nat.pow_le_pow_right (by decide) hcount
      _ = wordLimit := by decide
  cases bytes with
  | nil =>
      cases hread
  | cons b bytes =>
      simp only [word, decodeWord] at hread
      split_ifs at hread with hbyte htwo hfour hlast
      · cases hread
        exact Nat.lt_trans b.toNat_lt (by decide)
      · exact hlong (by decide) hread
      · exact hlong (by decide) hread
      · exact hlong (by decide) hread

theorem utf8ByteSize_of_text?
    {content : List UInt8} {s : String}
    (htext : Text.text? content = some s) :
    s.utf8ByteSize = content.length := by
  unfold Text.text? String.fromUTF8? at htext
  split at htext
  · cases htext
    rfl
  · cases htext

theorem text_yields : text.Yields (·.utf8ByteSize < wordLimit) := by
  intro bytes s rest hread
  simp only [text, Option.bind_eq_bind, Option.bind_eq_some_iff] at hread
  obtain ⟨⟨length, after⟩, hlength, ⟨content, left⟩, hcontent, found, hfound, hresult⟩ := hread
  cases hresult
  unfold takeBytes at hcontent
  split_ifs at hcontent with henough
  cases hcontent
  show s.utf8ByteSize < wordLimit
  rw [utf8ByteSize_of_text? hfound, List.length_take, Nat.min_eq_left henough]
  exact word_yields _ _ _ hlength

end Words

section Parts

variable {codec : Codec α} {P : α → Prop}

theorem pair_yields
    {second : Codec β} {Q : β → Prop}
    (hfirst : codec.Yields P)
    (hsecond : second.Yields Q) :
    (codec.pair second).Yields (fun value => P value.1 ∧ Q value.2) := by
  intro bytes value rest hread
  simp only [pair, Option.bind_eq_bind, Option.bind_eq_some_iff] at hread
  obtain ⟨⟨a, after⟩, ha, ⟨b, left⟩, hb, hresult⟩ := hread
  cases hresult
  exact ⟨hfirst _ _ _ ha, hsecond _ _ _ hb⟩

theorem via_yields
    {toRaw : β → α} {ofRaw : α → β} {Q : β → Prop}
    (hcodec : codec.Yields P)
    (hmade : ∀ raw, P raw → Q (ofRaw raw)) :
    (codec.via toRaw ofRaw).Yields Q := by
  intro bytes value rest hread
  simp only [via, Option.map_eq_some_iff] at hread
  obtain ⟨⟨raw, left⟩, hraw, hresult⟩ := hread
  cases hresult
  exact hmade raw (hcodec _ _ _ hraw)

theorem decodeMany_yields
    (hcodec : codec.Yields P)
    {count : Nat} {bytes rest : List UInt8} {values : List α}
    (hread : decodeMany codec count bytes = some (values, rest)) :
    values.length = count ∧ ∀ value ∈ values, P value := by
  induction count generalizing bytes values with
  | zero =>
      cases hread
      simp
  | succ count ih =>
      simp only [decodeMany, Option.bind_eq_bind, Option.bind_eq_some_iff] at hread
      obtain ⟨⟨value, after⟩, hvalue, ⟨others, left⟩, hothers, hresult⟩ := hread
      cases hresult
      obtain ⟨hlength, hall⟩ := ih hothers
      refine ⟨by rw [List.length_cons, hlength], ?_⟩
      exact List.forall_mem_cons.mpr ⟨hcodec _ _ _ hvalue, hall⟩

theorem list_yields
    (hcodec : codec.Yields P) :
    (list codec).Yields (fun values => values.length < wordLimit ∧ ∀ value ∈ values, P value) := by
  intro bytes values rest hread
  simp only [list, Option.bind_eq_bind, Option.bind_eq_some_iff] at hread
  obtain ⟨⟨length, after⟩, hlength, hvalues⟩ := hread
  obtain ⟨rfl, hall⟩ := decodeMany_yields hcodec hvalues
  exact ⟨word_yields _ _ _ hlength, hall⟩

end Parts

section PropertySets

theorem mem_of_mem_toList_ofList
    {entries : List (String × String)} {entry : String × String}
    (hentry : entry ∈ (.ofList entries : PropertySet).toList) :
    entry ∈ entries := by
  have hheld := Std.ExtTreeMap.mem_toList_iff_getElem?_eq_some.mp hentry
  obtain ⟨earlier, later, hsplit, -⟩ := PropertySet.getElem?_ofList_iff_lastGives.mp hheld
  rw [hsplit]
  exact List.mem_append_right _ List.mem_cons_self

theorem propertySet_yields :
    propertySet.Yields (fun properties =>
      properties.size < wordLimit ∧
      ∀ entry ∈ properties.toList,
        entry.1.utf8ByteSize < wordLimit ∧ entry.2.utf8ByteSize < wordLimit) := by
  refine via_yields (list_yields (pair_yields text_yields text_yields)) ?_
  rintro entries ⟨hlength, hentries⟩
  refine ⟨?_, ?_⟩
  · exact Nat.lt_of_le_of_lt Std.ExtTreeMap.size_ofList_le hlength
  · intro entry hentry
    exact hentries entry (mem_of_mem_toList_ofList hentry)

end PropertySets

end Codec

end HopRouting
