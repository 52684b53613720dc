import Mathlib.Tactic.Common
import WordCalc.Hex

namespace WordCalc.Hex

/-- The value of capital digits, the most significant first. -/
def value (t : Text) : Nat := t.foldl (fun n c => 16 * n + digits.idxOf c) 0

/-- The text is the number in capital digits, as short as the width allows. -/
structure IsNumeral (width n : Nat) (t : Text) : Prop where
  mem_digits : ∀ c ∈ t, c ∈ digits
  value_eq : value t = n
  width_le : width ≤ t.length
  head?_ne : width < t.length → t.head? ≠ some '0'

/-! ## One digit -/

section Digit

variable {n : Nat} (h : n < 16)

include h

theorem digit_facts : digit n ∈ digits ∧ digits.idxOf (digit n) = n ∧
    (Nat.digitChar n).toUpper = digit n ∧ (n ≠ 0 → digit n ≠ '0') := by
  have all : ∀ m ∈ List.range 16, digit m ∈ digits ∧ digits.idxOf (digit m) = m ∧
      (Nat.digitChar m).toUpper = digit m ∧ (m ≠ 0 → digit m ≠ '0') := by
    decide
  exact all n (List.mem_range.mpr h)

theorem digit_mem_digits : digit n ∈ digits := (digit_facts h).1

theorem idxOf_digit : digits.idxOf (digit n) = n := (digit_facts h).2.1

theorem toUpper_digitChar : (Nat.digitChar n).toUpper = digit n := (digit_facts h).2.2.1

theorem digit_ne_zero (hn : n ≠ 0) : digit n ≠ '0' := (digit_facts h).2.2.2 hn

end Digit

/-! ## The digits of a number -/

theorem value_append_singleton (t : Text) (c : Char) :
    value (t ++ [c]) = 16 * value t + digits.idxOf c := by
  rw [value, List.foldl_append]
  rfl

theorem value_replicate_append (k : Nat) (t : Text) :
    value (List.replicate k '0' ++ t) = value t := by
  induction k with
  | zero => rfl
  | succ k ih => exact ih

/-- The digits of a number without a width. -/
def significant (n : Nat) : Text := (Nat.toDigits 16 n).map Char.toUpper

theorem significant_of_lt {n : Nat} (h : n < 16) : significant n = [digit n] := by
  rw [significant, Nat.toDigits_of_lt_base h, List.map_singleton, toUpper_digitChar h]

theorem significant_of_le {n : Nat} (h : 16 ≤ n) :
    significant n = significant (n / 16) ++ [digit (n % 16)] := by
  rw [significant, Nat.toDigits_of_base_le (by decide) h, List.map_append, List.map_singleton,
    toUpper_digitChar (Nat.mod_lt n (by decide)), significant]

/-- Induction on the number of digits. -/
theorem digits_induction {P : Nat → Prop} (one : ∀ n, n < 16 → P n)
    (more : ∀ n, 16 ≤ n → P (n / 16) → P n) (n : Nat) : P n := by
  induction n using Nat.strongRecOn with
  | ind n ih =>
    by_cases h : n < 16
    · exact one n h
    · exact more n (Nat.not_lt.mp h) (ih (n / 16) (by omega))

theorem value_significant (n : Nat) : value (significant n) = n := by
  induction n using digits_induction with
  | one n h =>
    rw [significant_of_lt h, ← List.nil_append [digit n], value_append_singleton, idxOf_digit h]
    exact Nat.zero_add n
  | more n h ih =>
    rw [significant_of_le h, value_append_singleton, ih, idxOf_digit (Nat.mod_lt n (by decide))]
    omega

theorem mem_digits_of_mem_significant {n : Nat} {c : Char} (hc : c ∈ significant n) :
    c ∈ digits := by
  induction n using digits_induction with
  | one n h =>
    rw [significant_of_lt h] at hc
    rw [List.mem_singleton.mp hc]
    exact digit_mem_digits h
  | more n h ih =>
    rw [significant_of_le h, List.mem_append] at hc
    rcases hc with hstart | hlast
    · exact ih hstart
    · rw [List.mem_singleton.mp hlast]
      exact digit_mem_digits (Nat.mod_lt n (by decide))

theorem head?_significant_ne {n : Nat} (hn : n ≠ 0) : (significant n).head? ≠ some '0' := by
  induction n using digits_induction with
  | one n h =>
    rw [significant_of_lt h]
    exact fun hhead => digit_ne_zero h hn (Option.some.inj hhead)
  | more n h ih =>
    have hquot : n / 16 ≠ 0 := by omega
    cases hstart : significant (n / 16) with
    | nil => simp [significant] at hstart
    | cons c rest =>
      rw [hstart] at ih
      rw [significant_of_le h, hstart]
      exact ih hquot

theorem ofNat_eq (width n : Nat) :
    ofNat width n = List.replicate (width - (significant n).length) '0' ++ significant n := rfl

theorem isNumeral_ofNat {width : Nat} (hwidth : 0 < width) (n : Nat) :
    IsNumeral width n (ofNat width n) := by
  have hlength : (ofNat width n).length = max width (significant n).length := by
    rw [ofNat_eq, List.length_append, List.length_replicate]
    omega
  refine ⟨fun c hc => ?_, ?_, ?_, fun hlonger => ?_⟩
  · rw [ofNat_eq, List.mem_append] at hc
    rcases hc with hzero | hdigit
    · rw [List.eq_of_mem_replicate hzero]
      decide
    · exact mem_digits_of_mem_significant hdigit
  · rw [ofNat_eq, value_replicate_append, value_significant]
  · omega
  · -- without zeros in front, and zero itself has only one digit
    have hn : n ≠ 0 := by
      rintro rfl
      rw [hlength, significant_of_lt (by decide)] at hlonger
      simp at hlonger
      omega
    have hnone : width - (significant n).length = 0 := by omega
    rw [ofNat_eq, hnone]
    exact head?_significant_ne hn

end WordCalc.Hex
