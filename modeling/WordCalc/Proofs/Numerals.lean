import Mathlib.Algebra.Group.Nat.Defs
import Mathlib.Tactic.Common
import WordCalc.Lexer

/-!
# Numerals

The limit on the digits of a literal refuses nothing that the range of words would
let through, since a number without leading zeros is at least the power of ten with
as many digits.  `positional` is the value of digits by their places.
-/

namespace WordCalc

namespace Text

theorem isAscii_of_isDigit {c : Char} (h : c.isDigit = true) : isAscii c = true :=
  decide_eq_true (Nat.lt_of_le_of_lt (isDigit_iff.mp h).2 (by decide))

/-- The first range of digits is the decimal ones and all others lie beyond
ASCII. -/
theorem isDigit_of_isAnyDigit {c : Char} (h : isAnyDigit c = true) (hascii : isAscii c = true) :
    c.isDigit = true := by
  have hranges : ∀ r ∈ digitRanges, r = (0x30, 0x39) ∨ 128 ≤ r.1 := by decide
  have hlt : c.toNat < 128 := of_decide_eq_true hascii
  simp only [isAnyDigit, inRanges, List.any_eq_true, Bool.and_eq_true, decide_eq_true_eq] at h
  obtain ⟨r, hr, lo, hi⟩ := h
  rcases hranges r hr with rfl | hbeyond
  · exact isDigit_iff.mpr ⟨lo, hi⟩
  · omega

theorem isAsciiBlank_eq_false_of_isDigit {c : Char} (h : c.isDigit = true) :
    isAsciiBlank c = false := by
  cases hblank : isAsciiBlank c with
  | false => rfl
  | true =>
    have := isBlank_eq_false_of_isAnyDigit (isAnyDigit_of_isDigit h)
    rw [isBlank_of_isAsciiBlank hblank] at this
    cases this

theorem dropWhile_eq_self {p : Char → Bool} {t : Text} (h : ∀ c ∈ t, p c = false) :
    t.dropWhile p = t := by
  cases t with
  | nil => rfl
  | cons c rest => rw [List.dropWhile_cons_of_neg (by rw [h c List.mem_cons_self]; decide)]

theorem strip_eq_self {p : Char → Bool} {t : Text} (h : ∀ c ∈ t, p c = false) :
    strip p t = t := by
  have hrev : ∀ c ∈ t.reverse, p c = false := fun c hc => h c (List.mem_reverse.mp hc)
  rw [strip, dropWhile_eq_self h, dropWhile_eq_self hrev, List.reverse_reverse]

end Text

namespace Decimal

/-- The value of digits. -/
def value (digits : Text) : Nat := Nat.ofDigitChars 10 digits 0

theorem value_append (a b : Text) : value (a ++ b) = 10 ^ b.length * value a + value b := by
  rw [value, Nat.ofDigitChars_append, Nat.ofDigitChars_eq_ofDigitChars_zero]
  rfl

theorem value_cons (c : Char) (rest : Text) :
    value (c :: rest) = 10 ^ rest.length * (c.toNat - 48) + value rest := by
  rw [value, Nat.ofDigitChars_cons, Nat.ofDigitChars_eq_ofDigitChars_zero, Nat.mul_zero,
    Nat.zero_add]
  rfl

theorem value_dropWhile_zero (digits : Text) :
    value (digits.dropWhile (· == '0')) = value digits := by
  induction digits with
  | nil => rfl
  | cons c rest ih =>
    by_cases hc : c = '0'
    · subst hc
      rw [List.dropWhile_cons_of_pos rfl, ih, value_cons]
      exact (Nat.zero_add _).symm
    · rw [List.dropWhile_cons_of_neg (by simpa using hc)]

/-- The value by places: a digit counts ten to the number of digits behind it. -/
def positional : Text → Nat
  | [] => 0
  | c :: rest => (c.toNat - '0'.toNat) * 10 ^ rest.length + positional rest

theorem value_eq_positional (digits : Text) : value digits = positional digits := by
  induction digits with
  | nil => rfl
  | cons c rest ih =>
    rw [value_cons, positional, ih, Nat.mul_comm]
    rfl

theorem pow_le_value_cons {c : Char} (hdigit : c.isDigit = true) (hc : c ≠ '0') (rest : Text) :
    10 ^ rest.length ≤ value (c :: rest) := by
  have hpos : 0 < c.toNat - 48 := by
    have hlow := (Text.isDigit_iff.mp hdigit).1
    have hne : c.toNat ≠ 48 := fun h => hc (Char.toNat_inj.mp h)
    omega
  rw [value_cons]
  exact Nat.le_trans (Nat.le_mul_of_pos_right _ hpos) (Nat.le_add_right _ _)

section Digits

variable {digits : Text} (hne : digits ≠ []) (h : ∀ c ∈ digits, c.isDigit = true)

include hne h

theorem ungrouped?_of_isDigit : ungrouped? digits = some digits := by
  fun_induction ungrouped? digits with
  | case1 => exact absurd rfl hne
  | case2 c hc => rfl
  | case3 c hc => exact absurd (h c List.mem_cons_self) hc
  | case4 c rest => exact absurd (h '_' (List.mem_cons_of_mem c List.mem_cons_self)) (by decide)
  | case5 c rest hc => exact absurd (h c List.mem_cons_self) hc
  | case6 c d rest _ hc ih =>
    rw [ih (List.cons_ne_nil d rest) (List.forall_mem_cons.mp h).2]
    rfl
  | case7 c d rest _ hc => exact absurd (h c List.mem_cons_self) hc

theorem toNat?_of_isDigit : toNat? digits = some (value digits) := by
  rw [toNat?, ungrouped?_of_isDigit hne h]
  rfl

theorem toInt?_of_isDigit : toInt? digits = some (value digits : Int) := by
  have hstrip : Text.strip Text.isAsciiBlank digits = digits :=
    Text.strip_eq_self fun c hc => Text.isAsciiBlank_eq_false_of_isDigit (h c hc)
  rw [toInt?, hstrip]
  split
  · exact absurd (h '-' List.mem_cons_self) (by decide)
  · exact absurd (h '+' List.mem_cons_self) (by decide)
  · rw [toNat?_of_isDigit hne h]
    rfl

end Digits

end Decimal

namespace Literal

open Decimal (value)

theorem value_significant (literal : Text) : value (significant literal) = value literal := by
  rw [← Decimal.value_dropWhile_zero literal, significant]
  split
  · next hnil => rw [hnil]; rfl
  · rfl

theorem significant_ne_nil (literal : Text) : significant literal ≠ [] := by
  unfold significant
  split
  · exact List.cons_ne_nil _ _
  · next hne => exact hne

section Digits

variable {literal : Text} (h : ∀ c ∈ literal, c.isDigit = true)

include h

theorem isDigit_significant : ∀ c ∈ significant literal, c.isDigit = true := by
  unfold significant
  split
  · exact List.forall_mem_singleton.mpr rfl
  · exact fun c hc => h c ((List.dropWhile_sublist _).subset hc)

/-- A value with too many digits is too large for a word. -/
theorem length_significant_le (hvalue : value literal ≤ Word.largest) :
    (significant literal).length ≤ Word.maxDigits := by
  unfold significant
  split
  · decide
  · next hne =>
    cases hdrop : literal.dropWhile (· == '0') with
    | nil => exact absurd hdrop hne
    | cons c rest =>
      have hmem : c ∈ literal := (List.dropWhile_sublist _).subset (hdrop ▸ List.mem_cons_self)
      have hc : c ≠ '0' := by
        have := List.head?_dropWhile_not (· == '0') literal
        rw [hdrop] at this
        simpa using this
      have hpow := Decimal.pow_le_value_cons (h c hmem) hc rest
      rw [← hdrop, Decimal.value_dropWhile_zero] at hpow
      have hlarge : Word.largest < 10 ^ Word.maxDigits := by decide
      have hlt := (Nat.pow_lt_pow_iff_right (by decide)).mp
        (Nat.lt_of_le_of_lt (Nat.le_trans hpow hvalue) hlarge)
      exact hlt

/-- The value of decimal digits as a literal. -/
theorem value?_of_isDigit :
    value? literal = if value literal ≤ Word.largest then some (value literal : Int) else none := by
  have hascii : literal.all Text.isAscii = true :=
    List.all_eq_true.mpr fun c hc => Text.isAscii_of_isDigit (h c hc)
  have hread : Decimal.toInt? (significant literal) = some (value literal : Int) := by
    rw [Decimal.toInt?_of_isDigit (significant_ne_nil literal) (isDigit_significant h),
      value_significant]
  have hfits : Word.Fits (value literal : Int) ↔ value literal ≤ Word.largest :=
    (and_iff_right (Int.natCast_nonneg _)).trans Int.ofNat_le
  rw [value?, hread]
  by_cases hvalue : value literal ≤ Word.largest
  · rw [if_pos ⟨hascii, length_significant_le h hvalue⟩, if_pos hvalue,
      Option.filter_some, if_pos (decide_eq_true (hfits.mpr hvalue))]
  · have hlarge : decide (Word.Fits (value literal : Int)) = false :=
      decide_eq_false (hfits.not.mpr hvalue)
    rw [if_neg hvalue, Option.filter_some, hlarge]
    exact ite_self none

end Digits

theorem isAscii_of_value? {literal : Text} {n : Int} (h : value? literal = some n) :
    ∀ c ∈ literal, Text.isAscii c = true := by
  unfold value? at h
  split at h
  · next htests => exact List.all_eq_true.mp htests.1
  · cases h

/-- A run of digits that has a value is decimal. -/
theorem isDigit_of_value? {literal : Text} {n : Int} (h : value? literal = some n)
    (hdigits : ∀ c ∈ literal, Text.isAnyDigit c = true) : ∀ c ∈ literal, c.isDigit = true :=
  fun c hc => Text.isDigit_of_isAnyDigit (hdigits c hc) (isAscii_of_value? h c hc)

theorem exists_value?_iff {literal : Text} (h : ∀ c ∈ literal, c.isDigit = true) :
    (∃ n, value? literal = some n) ↔ value literal ≤ Word.largest := by
  rw [value?_of_isDigit h]
  by_cases hle : value literal ≤ Word.largest
  · simp [hle]
  · simp [hle]

/-- Start and end of a numeral are worth no more than the whole. -/
theorem exists_value?_of_append {a b : Text} {n : Int} (h : value? (a ++ b) = some n)
    (hdigits : ∀ c ∈ a ++ b, c.isDigit = true) :
    (∃ m, value? a = some m) ∧ ∃ m, value? b = some m := by
  have hle := (exists_value?_iff hdigits).mp ⟨n, h⟩
  have hstart : value a ≤ 10 ^ b.length * value a :=
    Nat.le_mul_of_pos_left _ (Nat.pow_pos (by decide))
  rw [Decimal.value_append] at hle
  rw [exists_value?_iff fun c hc => hdigits c (List.mem_append_left b hc),
    exists_value?_iff fun c hc => hdigits c (List.mem_append_right a hc)]
  omega

/-- A run of digits without a value has none with more digits behind it. -/
theorem value?_append_eq_none {a b : Text} (h : ∀ c ∈ a ++ b, Text.isAnyDigit c = true)
    (ha : value? a = none) : value? (a ++ b) = none := by
  by_contra hsome
  obtain ⟨n, hn⟩ := Option.ne_none_iff_exists'.mp hsome
  obtain ⟨m, hm⟩ := (exists_value?_of_append hn (isDigit_of_value? hn h)).1
  rw [ha] at hm
  cases hm

end Literal

namespace Lexer

/-- A run of digits is read as its value by places if it is decimal and the value
is a word, and refused otherwise, however many zeros it starts with. -/
theorem readLiteral_eq_positional {literal : Text}
    (h : ∀ c ∈ literal, Text.isAnyDigit c = true) (source : Text) (index : Nat) :
    readLiteral literal source index =
      if literal.all Text.isAscii = true ∧ Decimal.positional literal ≤ Word.largest then
        .ok (Decimal.positional literal : Int)
      else .error ⟨.literal literal, source, index⟩ := by
  rw [readLiteral, literalValue, ← Decimal.value_eq_positional]
  by_cases hascii : literal.all Text.isAscii = true
  · have hdecimal : ∀ c ∈ literal, c.isDigit = true := fun c hc =>
      Text.isDigit_of_isAnyDigit (h c hc) (List.all_eq_true.mp hascii c hc)
    rw [Literal.value?_of_isDigit hdecimal]
    by_cases hle : Decimal.value literal ≤ Word.largest
    · rw [if_pos hle, if_pos ⟨hascii, hle⟩]
      rfl
    · rw [if_neg hle, if_neg fun hboth => hle hboth.2]
      rfl
  · have hnone : Literal.value? literal = none := by
      rw [Literal.value?, if_neg fun htests => hascii htests.1]
    rw [hnone, if_neg fun hboth => hascii hboth.1]
    rfl

/-- The largest word behind a hundred zeros, and the number after it. -/
theorem readLiteral_eq_positional_limit :
    let zeros := List.replicate 100 '0'
    let largest := zeros ++ Decimal.ofNat Word.largest
    let next := zeros ++ Decimal.ofNat (Word.largest + 1)
    (∀ c ∈ largest, Text.isAnyDigit c = true) ∧ (∀ c ∈ next, Text.isAnyDigit c = true) ∧
      readLiteral largest largest 0 = .ok (Word.largest : Int) ∧
      readLiteral next next 0 = .error ⟨.literal next, next, 0⟩ := by
  intro zeros largest next
  have hlargest : ∀ c ∈ largest, Text.isAnyDigit c = true :=
    List.all_eq_true.mp (by decide +kernel)
  have hnext : ∀ c ∈ next, Text.isAnyDigit c = true := List.all_eq_true.mp (by decide +kernel)
  refine ⟨hlargest, hnext, ?_, ?_⟩
  · rw [readLiteral_eq_positional hlargest]
    decide +kernel
  · rw [readLiteral_eq_positional hnext]
    decide +kernel

end Lexer
end WordCalc
