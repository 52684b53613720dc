import WordCalc.Proofs.Encoding
import WordCalc.Proofs.Hexadecimals
import WordCalc.Proofs.Layout
import WordCalc.Proofs.Rendering

namespace WordCalc

namespace Decimal

/-- An integer is read as it was written. -/
theorem toInt?_ofInt (n : Int) : toInt? (ofInt n) = some n := by
  have hne := ofNat_ne_nil n.natAbs
  have hdigits : ∀ c ∈ ofNat n.natAbs, c.isDigit = true := fun _ => isDigit_of_mem_ofNat
  by_cases hneg : n < 0
  · have hblank : ∀ c ∈ '-' :: ofNat n.natAbs, Text.isAsciiBlank c = false :=
      List.forall_mem_cons.mpr ⟨by decide, fun c hc =>
        Text.isAsciiBlank_eq_false_of_isDigit (hdigits c hc)⟩
    rw [ofInt, if_pos hneg, toInt?, Text.strip_eq_self hblank]
    simp only [toNat?_of_isDigit hne hdigits, value_ofNat]
    have habs : -(n.natAbs : Int) = n := by omega
    exact congrArg some habs
  · have habs : (n.natAbs : Int) = n := by omega
    rw [ofInt, if_neg hneg, toInt?_of_isDigit hne hdigits, value_ofNat, habs]

end Decimal

namespace Opcode

def ofName? (name : Text) : Option Opcode := all.find? fun o => o.name == name

end Opcode

namespace Instruction

/-- The instruction that is written as the text. -/
def ofText? (t : Text) : Option Instruction :=
  match Opcode.ofName? (t.takeWhile (· != ' ')), t.dropWhile (· != ' ') with
  | some (.operation op), [] => some (.operation op)
  | some .push, _ :: operand => (Decimal.toInt? operand).map .push
  | _, _ => none

theorem ofText?_text (i : Instruction) : ofText? i.text = some i := by
  cases i with
  | operation op => cases op <;> rfl
  | push n =>
    show (Decimal.toInt? (Decimal.ofInt n)).map Instruction.push = _
    rw [Decimal.toInt?_ofInt]
    rfl

theorem newline_notMem_text (i : Instruction) : '\n' ∉ i.text := by
  cases i with
  | operation op => cases op <;> decide
  | push n =>
    have hname : '\n' ∉ "PUSH32 ".toList := by decide
    show '\n' ∉ "PUSH32 ".toList ++ Decimal.ofInt n
    rw [List.mem_append, not_or]
    exact ⟨hname, Decimal.newline_notMem_ofInt n⟩

end Instruction

namespace Program

/-- The instruction on a line of a listing: what stands behind the first space. -/
def instructionOfLine? (line : Text) : Option Instruction :=
  Instruction.ofText? ((line.dropWhile (· != ' ')).drop 1)

theorem isNumeral_offset (l : Located) : Hex.IsNumeral 4 l.offset (Hex.ofNat 4 l.offset) :=
  Hex.isNumeral_ofNat (by decide) l.offset

theorem instructionOfLine?_line (l : Located) : instructionOfLine? l.line = some l.instruction := by
  have hspace : ∀ c ∈ Hex.digits, (c != ' ') = true := List.all_eq_true.mp (by decide)
  have hoffset : ∀ c ∈ Hex.ofNat 4 l.offset, (c != ' ') = true := fun c hc =>
    hspace c ((isNumeral_offset l).mem_digits c hc)
  rw [instructionOfLine?, Located.line, List.append_assoc, List.dropWhile_append_of_pos hoffset]
  exact l.instruction.ofText?_text

/-- The program of which the text is the listing.  The offsets are not read. -/
def ofListing? (text : Text) : Option (List UInt8) := do
  let instructions ← (Text.rows text).mapM instructionOfLine?
  (ofPolish ⟨(instructions.map Instruction.token).reverse⟩).toOption

theorem mapM_instructionOfLine? (located : List Located) :
    (located.map Located.line).mapM instructionOfLine? =
      some (located.map Located.instruction) := by
  induction located with
  | nil => rfl
  | cons l rest ih =>
    rw [List.map_cons, List.mapM_cons, instructionOfLine?_line, ih]
    rfl

theorem newline_notMem_line (l : Located) : '\n' ∉ l.line := by
  have hdigit : '\n' ∉ Hex.digits := by decide
  have hoffset : '\n' ∉ Hex.ofNat 4 l.offset := fun h =>
    hdigit ((isNumeral_offset l).mem_digits _ h)
  have hcolon : '\n' ∉ ": ".toList := by decide
  rw [Located.line, List.mem_append, List.mem_append, not_or, not_or]
  exact ⟨⟨hoffset, hcolon⟩, l.instruction.newline_notMem_text⟩

theorem rows_stacked_lines (located : List Located) :
    Text.rows (Text.stacked (located.map Located.line)) = located.map Located.line := by
  refine Text.rows_stacked fun line hline => ?_
  obtain ⟨l, _, rfl⟩ := List.mem_map.mp hline
  refine ⟨fun hnil => ?_, newline_notMem_line l⟩
  rw [Located.line, List.append_eq_nil_iff, List.append_eq_nil_iff] at hnil
  exact absurd hnil.1.2 (by decide)

theorem listing_of_fault_eq_none {code : List UInt8} (h : (decode code).fault = none) :
    listing code = .ok (Text.stacked ((decode code).instructions.map Located.line)) := by
  rw [listing, lines, h]
  rfl

theorem ofListing?_stacked {code : List UInt8} (h : (decode code).fault = none) :
    ofListing? (Text.stacked ((decode code).instructions.map Located.line)) = some code := by
  have hcode := (ofPolish_decode code).1
  -- what decoding stops at is the end, so the bytes made again are all of them
  have hstop : stop code = code.length := by rw [stop, h]; rfl
  rw [hstop, List.take_length, Decoded.polish, ← map_token_map_instruction] at hcode
  rw [ofListing?, rows_stacked_lines, mapM_instructionOfLine?]
  show (ofPolish _).toOption = some code
  rw [hcode]
  rfl

theorem offset_of_fault_eq_none {code : List UInt8} (h : (decode code).fault = none) {k : Nat}
    {l : Located} (hl : (decode code).instructions[k]? = some l) :
    l.offset = (((decode code).instructions.take k).map Located.size).sum := by
  obtain ⟨p, ⟨hp, hcode⟩, _⟩ := (fault_eq_none_iff code).mp h
  exact offset_decode hp hcode hl

/-- Programs have the same listing only if they are the same.  The text has a line
for every instruction, in order, with the number of bytes of those above it in
front, and the program can be put together from it. -/
theorem listing_lossless :
    (∀ a b, (decode a).fault = none → (decode b).fault = none → (listing a = listing b ↔ a = b)) ∧
    ∀ code, (decode code).fault = none → ∃ text, listing code = .ok text ∧
      (Text.rows text).length = (decode code).instructions.length ∧
      (∀ k l, (decode code).instructions[k]? = some l → ∃ offset,
        (Text.rows text)[k]? = some (offset ++ ": ".toList ++ l.instruction.text) ∧
        Hex.IsNumeral 4 (((decode code).instructions.take k).map Located.size).sum offset) ∧
      ofListing? text = some code := by
  refine ⟨fun a b ha hb => ⟨fun h => ?_, fun h => by rw [h]⟩, fun code h => ?_⟩
  · rw [listing_of_fault_eq_none ha, listing_of_fault_eq_none hb] at h
    have hread := ofListing?_stacked ha
    rw [Except.ok.inj h, ofListing?_stacked hb] at hread
    exact (Option.some.inj hread).symm
  · refine ⟨_, listing_of_fault_eq_none h, ?_, fun k l hl => ?_, ofListing?_stacked h⟩
    · rw [rows_stacked_lines, List.length_map]
    · refine ⟨Hex.ofNat 4 l.offset, ?_, ?_⟩
      · rw [rows_stacked_lines, List.getElem?_map, hl]
        rfl
      · rw [← offset_of_fault_eq_none h hl]
        exact isNumeral_offset l

/-- Two programs that differ in one byte of an operand, which is the opcode of a push
in one of them. -/
theorem listing_lossless_operand :
    let a : List UInt8 := 0x7F :: List.replicate 31 0 ++ [0x7F, 0x01]
    let b : List UInt8 := 0x7F :: List.replicate 31 0 ++ [0x01, 0x01]
    (decode a).fault = none ∧ (decode b).fault = none ∧ listing a ≠ listing b ∧
      ∃ text offset, listing a = .ok text ∧ (Text.rows text).length = 2 ∧
        (Text.rows text)[1]? = some (offset ++ ": ".toList ++ "ADD".toList) ∧
        Hex.IsNumeral 4 33 offset ∧ ofListing? text = some a := by
  intro a b
  have ha : (decode a).fault = none := by decide +kernel
  have hb : (decode b).fault = none := by decide +kernel
  have hadd : (decode a).instructions[1]? = some ⟨33, .operation .add⟩ := by decide +kernel
  have htwo : (decode a).instructions.length = 2 := by decide +kernel
  have hsize : (((decode a).instructions.take 1).map Located.size).sum = 33 := by decide +kernel
  have hne : a ≠ b := by decide
  obtain ⟨text, htext, hlength, hlines, hread⟩ := listing_lossless.2 a ha
  obtain ⟨offset, hline, hnumeral⟩ := hlines 1 _ hadd
  rw [hsize] at hnumeral
  exact ⟨ha, hb, fun h => hne ((listing_lossless.1 a b ha hb).mp h), text, offset, htext,
    hlength.trans htwo, hline, hnumeral, hread⟩

end Program
end WordCalc
