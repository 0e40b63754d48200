import HopRouting.Text.Number

/-!
# Plain numerals

The plain numeral of a number is its decimal digits, without a sign and without zeros in front.  A
machine word is read back from its plain numeral (`word?_repr`), and nothing else is read from it
(`eq_of_word?_repr`); but a word can be spelled in other ways too.  No dot stands in a plain numeral
(`dot_not_mem_repr`).
-/

namespace HopRouting

namespace Text

theorem digitsValue?_append
    (front back : List Char)
    (start : Nat) :
    digitsValue? start (front ++ back) =
      (digitsValue? start front).bind fun value => digitsValue? value back := by
  induction front generalizing start with
  | nil => rfl
  | cons c rest ih =>
      rw [List.cons_append, digitsValue?, digitsValue?]
      split
      · exact ih _
      · rfl

theorem digitsValue?_digitChar
    {digit : Nat}
    (hdigit : digit < 10)
    (start : Nat) :
    digitsValue? start [digit.digitChar] = some (10 * start + digit) := by
  have hvalue : digit.digitChar.toNat - '0'.toNat = digit :=
    Nat.toNat_digitChar_sub_48_of_lt_ten hdigit
  have hkind : digit.digitChar.isDigit = true := by
    rw [Nat.isDigit_digitChar, decide_eq_true hdigit]
  rw [digitsValue?, if_pos hkind, hvalue, digitsValue?]

theorem digitsValue?_toDigits
    (n : Nat) :
    digitsValue? 0 (Nat.toDigits 10 n) = some n := by
  induction n using Nat.strongRecOn with
  | ind n ih =>
      by_cases hdigit : n < 10
      · rw [Nat.toDigits_of_lt_base hdigit, digitsValue?_digitChar hdigit, Nat.mul_zero,
          Nat.zero_add]
      · have hfront := ih (n / 10) (by omega)
        have hlast : n % 10 < 10 := Nat.mod_lt n (by decide)
        rw [Nat.toDigits_of_base_le (by decide) (by omega), digitsValue?_append, hfront,
          Option.bind_some, digitsValue?_digitChar hlast, Nat.div_add_mod]

theorem isDigit_of_mem_repr
    {n : Nat} {c : Char}
    (hmem : c ∈ n.repr.toList) :
    c.isDigit = true := by
  rw [Nat.toList_repr] at hmem
  exact Nat.isDigit_of_mem_toDigits (by decide) (by decide) hmem

theorem dot_not_mem_repr
    (n : Nat) :
    '.' ∉ n.repr.toList := by
  intro hdot
  exact absurd (isDigit_of_mem_repr hdot) (by decide)

/-- A numeral that does not begin with a plus sign is all digits. -/
theorem unsigned_of_not_mem
    {text : List Char}
    (hplus : '+' ∉ text) :
    unsigned text = text := by
  unfold unsigned
  split
  · exact absurd List.mem_cons_self hplus
  · rfl

theorem word?_repr_eq
    (n : Nat) :
    word? n.repr = (some n).filter (· < wordBound) := by
  have hplus : '+' ∉ n.repr.toList := by
    intro hmem
    exact absurd (isDigit_of_mem_repr hmem) (by decide)
  have hdigits : unsigned n.repr.toList = Nat.toDigits 10 n := by
    rw [unsigned_of_not_mem hplus, Nat.toList_repr]
  unfold word?
  split
  · next hnil =>
    exact absurd (hdigits.symm.trans hnil) Nat.toDigits_ne_nil
  · rw [hdigits, digitsValue?_toDigits]

/-- A machine word is read back from its plain numeral. -/
theorem word?_repr
    {n : Nat}
    (hn : n < wordBound) :
    word? n.repr = some n := by
  rw [word?_repr_eq, Option.filter_some, decide_eq_true hn, if_pos rfl]

/-- A plain numeral is read as no other number. -/
theorem eq_of_word?_repr
    {m n : Nat}
    (hword : word? m.repr = some n) :
    m = n := by
  rw [word?_repr_eq, Option.filter_eq_some_iff] at hword
  exact Option.some.inj hword.1

end Text

end HopRouting
