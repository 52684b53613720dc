import WordCalc.Proofs.Hexadecimals
import WordCalc.Proofs.Stages

/-!
# Bytes in hexadecimal text

The statements follow `read` case by case: a blank ends a stretch of digits, a byte
stands in front of the stretch that follows it, and anywhere else the first stretch
is not whole.
-/

namespace WordCalc

namespace Hex

/-- The digits in either case. -/
def anyCase : Text := "0123456789abcdefABCDEF".toList

def isDigit (c : Char) : Bool := anyCase.contains c

/-- The text in capitals and without its blanks. -/
def normalize (t : Text) : Text := (t.filter fun c => !Text.isAsciiBlank c).map Char.toUpper

/-- What stands between the blanks of a text, nothing where two of them meet. -/
def stretches (t : Text) : List Text := t.splitOnP Text.isAsciiBlank

/-- Digits only, and two for each byte. -/
structure IsWhole (t : Text) : Prop where
  even_length : t.length % 2 = 0
  isDigit : ∀ c ∈ t, isDigit c = true

/-! ## Digits -/

theorem forall_isDigit {p : Char → Bool} (hp : anyCase.all p = true) {c : Char}
    (h : isDigit c = true) : p c = true :=
  List.all_eq_true.mp hp c (List.contains_iff_mem.mp h)

theorem toUpper_mem_digits {c : Char} (h : isDigit c = true) : c.toUpper ∈ digits := by
  have all : (anyCase.all fun d => digits.contains d.toUpper) = true := by decide
  exact List.contains_iff_mem.mp (forall_isDigit all h)

/-- A small letter is checked as one of the alphabet, and any other character is
its own capital. -/
theorem isDigit_of_toUpper {c : Char} (h : c.toUpper ∈ digits) : isDigit c = true := by
  by_cases hlower : 'a'.val ≤ c.val ∧ c.val ≤ 'z'.val
  · have all : ((List.range 26).all fun n => !digits.contains (Char.ofNat (97 + n)).toUpper ||
        isDigit (Char.ofNat (97 + n))) = true := by decide
    have ha : 97 ≤ c.toNat := UInt32.le_iff_toNat_le.mp hlower.1
    have hz : c.toNat ≤ 122 := UInt32.le_iff_toNat_le.mp hlower.2
    have hc := List.all_eq_true.mp all (c.toNat - 97) (List.mem_range.mpr (by omega))
    rwa [Nat.add_sub_of_le ha, Char.ofNat_toNat, List.contains_iff_mem.mpr h, Bool.not_true,
      Bool.false_or] at hc
  · have all : digits.all isDigit = true := by decide
    rw [show c.toUpper = c from dif_neg hlower] at h
    exact List.all_eq_true.mp all c h

/-- A digit has a value, and nothing else has. -/
theorem isSome_digitValue? (c : Char) : (digitValue? c).isSome = isDigit c := by
  rw [Bool.eq_iff_iff, digitValue?, List.isSome_idxOf?]
  exact ⟨isDigit_of_toUpper, toUpper_mem_digits⟩

theorem isDigit_of_digitValue? {c : Char} {n : Nat} (h : digitValue? c = some n) :
    isDigit c = true := by
  rw [← isSome_digitValue?, h]
  rfl

theorem isDigit_eq_false_of_digitValue? {c : Char} (h : digitValue? c = none) :
    isDigit c = false := by
  rw [← isSome_digitValue?, h]
  rfl

/-- A digit is written as its capital. -/
theorem digit_of_digitValue? {c : Char} {n : Nat} (h : digitValue? c = some n) :
    n < 16 ∧ digit n = c.toUpper := by
  obtain ⟨hlt, hget, _⟩ := List.idxOf?_eq_some_iff.mp h
  refine ⟨hlt, ?_⟩
  rw [digit, List.getD_eq_getElem?_getD, List.getElem?_eq_getElem hlt, hget]
  rfl

theorem isAscii_of_isDigit {c : Char} (h : isDigit c = true) : Text.isAscii c = true :=
  forall_isDigit (by decide) h

theorem isAsciiBlank_eq_false_of_isDigit {c : Char} (h : isDigit c = true) :
    Text.isAsciiBlank c = false := by
  have all : (anyCase.all fun d => !Text.isAsciiBlank d) = true := by decide
  have hc := forall_isDigit all h
  rwa [Bool.not_eq_true'] at hc

theorem isAscii_of_isAsciiBlank {c : Char} (h : Text.isAsciiBlank c = true) :
    Text.isAscii c = true := by
  simp only [Text.isAsciiBlank, Bool.or_eq_true, beq_iff_eq, Bool.and_eq_true,
    decide_eq_true_eq] at h
  rw [Text.isAscii, decide_eq_true_eq]
  omega

/-! ## Stretches -/

theorem isWhole_nil : IsWhole [] := ⟨rfl, List.forall_mem_nil _⟩

theorem not_isWhole_singleton (c : Char) : ¬ IsWhole [c] := fun h => by cases h.even_length

/-- A byte in front of a stretch. -/
theorem isWhole_cons_cons {c d : Char} (hc : isDigit c = true) (hd : isDigit d = true)
    {t : Text} : IsWhole (c :: d :: t) ↔ IsWhole t := by
  have hlength : (c :: d :: t).length = t.length + 2 := rfl
  constructor
  · intro h
    have heven := h.even_length
    refine ⟨by omega, fun e he => h.isDigit e ?_⟩
    exact List.mem_cons_of_mem c (List.mem_cons_of_mem d he)
  · intro h
    have heven := h.even_length
    exact ⟨by omega, List.forall_mem_cons.mpr ⟨hc, List.forall_mem_cons.mpr ⟨hd, h.isDigit⟩⟩⟩

theorem stretches_blank {c : Char} (h : Text.isAsciiBlank c = true) (t : Text) :
    stretches (c :: t) = [] :: stretches t := by
  rw [stretches, List.splitOnP_cons_eq_if_modifyHead, if_pos h, stretches]

theorem stretches_cons {c : Char} (h : Text.isAsciiBlank c = false) {t first : Text}
    {others : List Text} (ht : stretches t = first :: others) :
    stretches (c :: t) = (c :: first) :: others := by
  rw [stretches, List.splitOnP_cons_eq_if_modifyHead, h]
  show (stretches t).modifyHead (List.cons c) = _
  rw [ht]
  rfl

theorem exists_stretches (t : Text) : ∃ first others, stretches t = first :: others :=
  List.exists_cons_of_ne_nil (List.splitOnP_ne_nil Text.isAsciiBlank t)

/-- Whether every stretch of the text is whole. -/
def IsWellFormed (t : Text) : Prop := ∀ piece ∈ stretches t, IsWhole piece

theorem isWellFormed_nil : IsWellFormed [] := by
  intro piece hpiece
  rw [stretches, List.splitOnP_nil, List.mem_singleton] at hpiece
  rw [hpiece]
  exact isWhole_nil

theorem isWellFormed_blank {c : Char} (h : Text.isAsciiBlank c = true) {t : Text} :
    IsWellFormed (c :: t) ↔ IsWellFormed t := by
  rw [IsWellFormed, stretches_blank h, List.forall_mem_cons]
  exact and_iff_right isWhole_nil

theorem isWellFormed_byte {c d : Char} (hc : isDigit c = true) (hd : isDigit d = true)
    {t : Text} : IsWellFormed (c :: d :: t) ↔ IsWellFormed t := by
  obtain ⟨first, others, ht⟩ := exists_stretches t
  have hdt := stretches_cons (isAsciiBlank_eq_false_of_isDigit hd) ht
  rw [IsWellFormed, IsWellFormed, stretches_cons (isAsciiBlank_eq_false_of_isDigit hc) hdt, ht,
    List.forall_mem_cons, List.forall_mem_cons, isWhole_cons_cons hc hd]

/-- The first stretch has a character that is no digit. -/
theorem not_isWellFormed_of_first {c : Char} (hblank : Text.isAsciiBlank c = false)
    (hc : isDigit c = false) (t : Text) : ¬ IsWellFormed (c :: t) := by
  obtain ⟨first, others, ht⟩ := exists_stretches t
  intro h
  rw [IsWellFormed, stretches_cons hblank ht, List.forall_mem_cons] at h
  rw [h.1.isDigit c List.mem_cons_self] at hc
  cases hc

/-- The first stretch is a lone digit, or the digit has something else behind it. -/
theorem not_isWellFormed_of_second {c d : Char} (hblank : Text.isAsciiBlank c = false)
    (hd : isDigit d = false) (t : Text) : ¬ IsWellFormed (c :: d :: t) := by
  intro h
  cases hdblank : Text.isAsciiBlank d with
  | true =>
    rw [IsWellFormed, stretches_cons hblank (stretches_blank hdblank t),
      List.forall_mem_cons] at h
    exact not_isWhole_singleton c h.1
  | false =>
    obtain ⟨first, others, ht⟩ := exists_stretches t
    rw [IsWellFormed, stretches_cons hblank (stretches_cons hdblank ht),
      List.forall_mem_cons] at h
    rw [h.1.isDigit d (List.mem_cons_of_mem c List.mem_cons_self)] at hd
    cases hd

/-! ## Reading -/

/-- The texts that are read are the well-formed ones. -/
theorem exists_read_iff (i : Nat) (t : Text) : (∃ b, read i t = .ok b) ↔ IsWellFormed t := by
  fun_induction read i t with
  | case1 => exact iff_of_true ⟨[], rfl⟩ isWellFormed_nil
  | case2 i c hblank =>
    exact iff_of_true ⟨[], rfl⟩ ((isWellFormed_blank hblank).mpr isWellFormed_nil)
  | case3 i c hblank =>
    refine iff_of_false (by simp) fun h => ?_
    rw [IsWellFormed, stretches_cons (Bool.eq_false_iff.mpr hblank) List.splitOnP_nil,
      List.forall_mem_cons] at h
    exact not_isWhole_singleton c h.1
  | case4 i c d rest hblank ih => rw [ih, isWellFormed_blank hblank]
  | case5 i c d rest hblank hc =>
    exact iff_of_false (by simp) (not_isWellFormed_of_first (Bool.eq_false_iff.mpr hblank)
      (isDigit_eq_false_of_digitValue? hc) _)
  | case6 i c d rest hblank high hd hc =>
    exact iff_of_false (by simp) (not_isWellFormed_of_second (Bool.eq_false_iff.mpr hblank)
      (isDigit_eq_false_of_digitValue? hd) _)
  | case7 i c d rest hblank high low hd hc ih =>
    rw [isWellFormed_byte (isDigit_of_digitValue? hc) (isDigit_of_digitValue? hd), ← ih]
    constructor
    · rintro ⟨b, hb⟩
      obtain ⟨b', hb', _⟩ := Outcome.map_eq_ok_iff.mp hb
      exact ⟨b', hb'⟩
    · rintro ⟨b, hb⟩
      exact ⟨_, Outcome.map_eq_ok_iff.mpr ⟨b, hb, rfl⟩⟩

theorem ofByte_ofNat {high low : Nat} (hhigh : high < 16) (hlow : low < 16) :
    ofByte (UInt8.ofNat (16 * high + low)) = [digit high, digit low] := by
  have hbyte : (UInt8.ofNat (16 * high + low)).toNat = 16 * high + low := by
    rw [UInt8.toNat_ofNat']
    omega
  have hquot : (16 * high + low) / 16 = high := by omega
  have hrem : (16 * high + low) % 16 = low := by omega
  rw [ofByte, hbyte, hquot, hrem]

theorem normalize_blank {c : Char} (h : Text.isAsciiBlank c = true) (t : Text) :
    normalize (c :: t) = normalize t := by
  rw [normalize, List.filter_cons_of_neg (by rw [h]; decide), normalize]

theorem normalize_digit {c : Char} (h : isDigit c = true) (t : Text) :
    normalize (c :: t) = c.toUpper :: normalize t := by
  have hkept : (!Text.isAsciiBlank c) = true := by
    rw [isAsciiBlank_eq_false_of_isDigit h]
    rfl
  rw [normalize, List.filter_cons_of_pos (p := fun c => !Text.isAsciiBlank c) hkept,
    List.map_cons, normalize]

/-- What is read is written as the normal form of its text. -/
theorem ofBytes_of_read {i : Nat} {t : Text} {b : List UInt8} (h : read i t = .ok b) :
    ofBytes b = normalize t := by
  fun_induction read i t generalizing b with
  | case1 =>
    cases h
    rfl
  | case2 i c hblank =>
    cases h
    exact (normalize_blank hblank []).symm
  | case3 | case5 | case6 => cases h
  | case4 i c d rest hblank ih => rw [normalize_blank hblank, ih h]
  | case7 i c d rest hblank high low hd hc ih =>
    obtain ⟨b', hb', rfl⟩ := Outcome.map_eq_ok_iff.mp h
    obtain ⟨hhigh, hupper⟩ := digit_of_digitValue? hc
    obtain ⟨hlow, hupper'⟩ := digit_of_digitValue? hd
    rw [normalize_digit (isDigit_of_digitValue? hc), normalize_digit (isDigit_of_digitValue? hd),
      ← hupper, ← hupper', ← ih hb', ofBytes, List.flatMap_cons, ofByte_ofNat hhigh hlow]
    rfl

theorem isAscii_of_read {i : Nat} {t : Text} {b : List UInt8} (h : read i t = .ok b) :
    ∀ c ∈ t, Text.isAscii c = true := by
  fun_induction read i t generalizing b with
  | case1 => exact List.forall_mem_nil _
  | case2 i c hblank =>
    exact List.forall_mem_singleton.mpr (isAscii_of_isAsciiBlank hblank)
  | case3 | case5 | case6 => cases h
  | case4 i c d rest hblank ih =>
    exact List.forall_mem_cons.mpr ⟨isAscii_of_isAsciiBlank hblank, ih h⟩
  | case7 i c d rest hblank high low hd hc ih =>
    obtain ⟨b', hb', _⟩ := Outcome.map_eq_ok_iff.mp h
    exact List.forall_mem_cons.mpr ⟨isAscii_of_isDigit (isDigit_of_digitValue? hc),
      List.forall_mem_cons.mpr ⟨isAscii_of_isDigit (isDigit_of_digitValue? hd), ih hb'⟩⟩

theorem read_ofBytes (i : Nat) (b : List UInt8) : read i (ofBytes b) = .ok b := by
  induction b generalizing i with
  | nil => rfl
  | cons x rest ih =>
    have hx : x.toNat < 256 := x.toNat_lt
    have hhigh := digitValue?_digit (n := x.toNat / 16) (by omega)
    have hlow := digitValue?_digit (n := x.toNat % 16) (by omega)
    have hblank := isAsciiBlank_eq_false_of_isDigit (isDigit_of_digitValue? hhigh)
    have hbyte : UInt8.ofNat (16 * (x.toNat / 16) + x.toNat % 16) = x := by
      rw [Nat.div_add_mod, UInt8.ofNat_toNat]
    show read i (digit (x.toNat / 16) :: digit (x.toNat % 16) :: ofBytes rest) = _
    rw [read, hblank, hhigh, hlow]
    simp only [ih, hbyte]
    rfl

/-- Reading looks for characters beyond ASCII first, and none of them is read. -/
theorem toBytes_eq_ok_iff {t : Text} {b : List UInt8} : toBytes t = .ok b ↔ read 0 t = .ok b := by
  unfold toBytes
  constructor
  · intro h
    split at h
    · cases h
    · exact h
  · intro h
    have hnone : t.findIdx? (fun c => !Text.isAscii c) = none := by
      rw [List.findIdx?_eq_none_iff]
      intro c hc
      rw [isAscii_of_read h c hc]
      rfl
    rw [hnone]
    exact h

end Hex

namespace Calculation

/-- Bytes are read back from their text, the texts that are read are the
well-formed ones, and each of them is the text of its bytes up to case and blanks.
So the code of a source text has the outcome of the source text after it has been
written and read. -/
theorem hex_text_lossless :
    (∀ b, Hex.toBytes (Hex.ofBytes b) = .ok b) ∧
    (∀ t b, Hex.toBytes t = .ok b → Hex.ofBytes b = Hex.normalize t) ∧
    (∀ t, (∃ b, Hex.toBytes t = .ok b) ↔ ∀ piece ∈ Hex.stretches t, Hex.IsWhole piece) ∧
    ∀ source trace, compile source = .ok trace →
      ∃ code, Hex.toBytes (Hex.ofBytes trace.code) = .ok code ∧ ∀ capacity,
        calculate capacity source = (Machine.execute capacity code).mapError .execution := by
  have hback (b : List UInt8) : Hex.toBytes (Hex.ofBytes b) = .ok b :=
    Hex.toBytes_eq_ok_iff.mpr (Hex.read_ofBytes 0 b)
  refine ⟨hback, fun t b h => Hex.ofBytes_of_read (Hex.toBytes_eq_ok_iff.mp h), fun t => ?_,
    fun source trace h => ⟨trace.code, hback trace.code, calculate_of_compile h⟩⟩
  simp only [Hex.toBytes_eq_ok_iff]
  exact Hex.exists_read_iff 0 t

/-- Blanks between bytes and small letters are read, and a byte that a blank
divides is not. -/
theorem hex_text_lossless_spellings :
    let star : Token := { kind := .star }
    let source := "2*3".toList
    let code : List UInt8 :=
      0x7F :: List.replicate 31 0 ++ 3 :: 0x7F :: List.replicate 31 0 ++ [2, 2]
    let trace : Trace :=
      ⟨source, [.number 2, star, .number 3], ⟨[star, .number 2, .number 3]⟩, code⟩
    Hex.toBytes " 7f0A\n00 ".toList = .ok [0x7F, 0x0A, 0x00] ∧
      Hex.normalize " 7f0A\n00 ".toList = "7F0A00".toList ∧
      ¬ (∃ b, Hex.toBytes "7f 0 A0".toList = .ok b) ∧
      compile source = .ok trace ∧ ∃ again, Hex.toBytes (Hex.ofBytes code) = .ok again ∧
        calculate 2 source = (Machine.execute 2 again).mapError .execution := by
  intro star source code trace
  obtain ⟨_, hnormal, haccepted, hrun⟩ := hex_text_lossless
  have hread : Hex.toBytes " 7f0A\n00 ".toList = .ok [0x7F, 0x0A, 0x00] := rfl
  have hcompile : compile source = .ok trace := by decide +kernel
  obtain ⟨again, hagain, hcalculate⟩ := hrun source trace hcompile
  refine ⟨hread, (hnormal _ _ hread).symm.trans rfl, ?_, hcompile, again, hagain, hcalculate 2⟩
  rw [haccepted]
  intro h
  have hone : ['0'] ∈ Hex.stretches "7f 0 A0".toList := by decide
  cases (h _ hone).even_length

end Calculation
end WordCalc
