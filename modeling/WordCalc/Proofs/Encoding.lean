import Mathlib.Algebra.GroupWithZero.Nat
import WordCalc.Proofs.Fetching

/-!
# Encoding and decoding

Every buffer that decodes to its end is the code of one Polish notation and of no
other.  It rests on one fetched instruction: its bytes are those between its offset
and the next one.
-/

namespace WordCalc

namespace Token

/-- An operator by itself, or a number that is a word. -/
def IsPlain (t : Token) : Prop :=
  (t.isOperator = true ∧ t.value = none) ∨ ∃ n, t = number n ∧ Word.Fits n

theorem IsPlain.isPolish {t : Token} (h : t.IsPlain) : t.IsPolish := h.imp And.left id

end Token

namespace Instruction

/-- The token that stands for an instruction in Polish notation. -/
def token : Instruction → Token
  | .push n => .number n
  | .operation .add => { kind := .plus }
  | .operation .mul => { kind := .star }
  | .operation .sub => { kind := .minus }
  | .operation .div => { kind := .slash }

theorem ofToken?_token (i : Instruction) : ofToken? i.token = some i := by
  cases i with
  | push n => rfl
  | operation op => cases op <;> rfl

theorem isPlain_token_operation (op : Operation) : (Instruction.operation op).token.IsPlain := by
  cases op <;> exact .inl ⟨rfl, rfl⟩

theorem exists_token_eq {t : Token} (h : t.IsPlain) : ∃ i, t = token i := by
  rcases h with ⟨hop, hv⟩ | ⟨n, rfl, _⟩
  · obtain ⟨kind, value⟩ := t
    simp only at hv
    subst hv
    cases kind with
    | plus => exact ⟨.operation .add, rfl⟩
    | star => exact ⟨.operation .mul, rfl⟩
    | minus => exact ⟨.operation .sub, rfl⟩
    | slash => exact ⟨.operation .div, rfl⟩
    | _ => cases hop
  · exact ⟨.push n, rfl⟩

end Instruction

namespace Program

def Located.token (l : Located) : Token := l.instruction.token

def Located.size (l : Located) : Nat := l.instruction.size

/-- The Polish notation of the instructions found. -/
def Decoded.polish (d : Decoded) : Polish := ⟨(d.instructions.map Located.token).reverse⟩

theorem map_token_filterMap {tokens : List Token} (h : ∀ t ∈ tokens, t.IsPlain) :
    (tokens.filterMap Instruction.ofToken?).map Instruction.token = tokens := by
  induction tokens with
  | nil => rfl
  | cons t rest ih =>
    obtain ⟨ht, hrest⟩ := List.forall_mem_cons.mp h
    obtain ⟨i, rfl⟩ := Instruction.exists_token_eq ht
    rw [List.filterMap_cons_some i.ofToken?_token, List.map_cons, ih hrest]

theorem map_token_instructions {tokens : List Token} (h : ∀ t ∈ tokens, t.IsPlain) :
    (instructions tokens).map Instruction.token = tokens.reverse :=
  map_token_filterMap fun t ht => h t (List.mem_reverse.mp ht)

theorem map_token_map_instruction (located : List Located) :
    (located.map Located.instruction).map Instruction.token = located.map Located.token :=
  List.map_map

/-- The offset of an instruction is the size of what is before it. -/
theorem offset_of_getElem?_place {offset k : Nat} {instructions : List Instruction} {l : Located}
    (h : (place offset instructions)[k]? = some l) :
    l.offset = offset + (((place offset instructions).take k).map Located.size).sum := by
  induction instructions generalizing offset k with
  | nil => cases h
  | cons i rest ih =>
    cases k with
    | zero =>
      cases h
      rfl
    | succ k =>
      rw [place, List.getElem?_cons_succ] at h
      rw [ih h, place, List.take_succ_cons, List.map_cons, List.sum_cons, ← Nat.add_assoc]
      rfl

/-! ## The bytes of a fetched instruction -/

theorem ofToken_token (i : Instruction) : ofToken i.token = i.bytes.mapError .word := by
  rw [ofToken, i.ofToken?_token]

theorem exists_bytes_of_fetch {code : List UInt8} {offset : Nat} {i : Instruction}
    (h : fetch code offset = some (.ok i)) :
    i.token.IsPlain ∧ ∃ bytes, ofToken i.token = .ok bytes ∧ bytes.length = i.size ∧
      code.drop offset = bytes ++ code.drop (offset + i.size) := by
  cases stands_of_fetch h with
  | @operation op _ hdrop =>
    exact ⟨Instruction.isPlain_token_operation op, [(Opcode.operation op).byte],
      ofToken_token _, rfl, hdrop⟩
  | @push operand _ hsize hdrop =>
    refine ⟨.inr ⟨_, rfl, Word.fits_ofBytes hsize⟩, Opcode.push.byte :: operand, ?_, ?_, ?_⟩
    · rw [ofToken_token, Instruction.bytes, Word.encode_ofBytes hsize]
      rfl
    · rw [List.length_cons, hsize, Instruction.size, Nat.add_comm]
    · rw [hdrop, Instruction.size, ← Nat.add_assoc]
      rfl

namespace Fetches

variable {code : List UInt8} {offset stop : Nat} {located : List Located}

theorem isPlain (h : Fetches code offset located stop) :
    ∀ l ∈ located, l.token.IsPlain := by
  induction h with
  | nil => exact List.forall_mem_nil _
  | cons hi _ ih => exact List.forall_mem_cons.mpr ⟨(exists_bytes_of_fetch hi).1, ih⟩

theorem exists_chunks (h : Fetches code offset located stop) :
    ∃ chunks, (located.map Located.token).mapM ofToken = .ok chunks ∧
      stop = offset + chunks.flatten.length ∧
      code.drop offset = chunks.flatten ++ code.drop stop := by
  induction h with
  | nil => exact ⟨[], rfl, rfl, rfl⟩
  | @cons offset stop i rest hi _ ih =>
    obtain ⟨_, bytes, hbytes, hlen, hdrop⟩ := exists_bytes_of_fetch hi
    obtain ⟨chunks, hchunks, hstop, hrest⟩ := ih
    refine ⟨bytes :: chunks, ?_, ?_, ?_⟩
    · rw [List.map_cons, List.mapM_cons, Located.token, hbytes, hchunks]
      rfl
    · rw [List.flatten_cons, List.length_append, hlen, hstop, Nat.add_assoc]
    · rw [hdrop, hrest, List.flatten_cons, List.append_assoc]

end Fetches

/-! ## Where decoding stops -/

/-- The end of the code or the offset of the fault. -/
def stop (code : List UInt8) : Nat := ((decode code).fault.map Fault.offset).getD code.length

/-- The instructions found make up the bytes before the stop. -/
theorem ofPolish_decode (code : List UInt8) :
    ofPolish (decode code).polish = .ok (code.take (stop code)) ∧ stop code ≤ code.length ∧
    StopsAt code (decode code).fault (stop code) := by
  obtain ⟨s, hfetches, hstops⟩ := fetches_decode code
  obtain ⟨chunks, hchunks, hs, hcode⟩ := hfetches.exists_chunks
  rw [Nat.zero_add] at hs
  rw [List.drop_zero] at hcode
  have hle : s ≤ code.length := by
    rw [hcode, List.length_append, ← hs]
    exact Nat.le_add_right _ _
  have hstop : s = stop code := hstops.eq_getD hle
  rw [← hstop]
  refine ⟨?_, hle, hstops⟩
  have htake : code.take s = chunks.flatten := by
    conv => lhs; rw [hcode, hs, List.take_left]
  rw [ofPolish, Decoded.polish, List.reverse_reverse, hchunks, Outcome.map_ok, htake]

theorem isPlain_decode (code : List UInt8) : ∀ t ∈ (decode code).polish.tokens, t.IsPlain := by
  obtain ⟨_, hfetches, _⟩ := fetches_decode code
  intro t ht
  obtain ⟨l, hl, rfl⟩ := List.mem_map.mp (List.mem_reverse.mp ht)
  exact hfetches.isPlain l hl

section Plain

variable {p : Polish} (hp : ∀ t ∈ p.tokens, t.IsPlain)

include hp

theorem exists_decode_of_isPlain : ∃ code, ofPolish p = .ok code ∧
    decode code = { instructions := place 0 (instructions p.tokens), fault := none } :=
  exists_ofPolish fun t ht => (hp t ht).isPolish

theorem decode_of_ofPolish {code : List UInt8} (h : ofPolish p = .ok code) :
    decode code = { instructions := place 0 (instructions p.tokens), fault := none } := by
  obtain ⟨code', hcode, hdecode⟩ := exists_decode_of_isPlain hp
  rw [hcode] at h
  cases h
  exact hdecode

/-- What is decoded gives the tokens back. -/
theorem map_token_decode {code : List UInt8} (h : ofPolish p = .ok code) :
    (decode code).instructions.map Located.token = p.tokens.reverse := by
  rw [decode_of_ofPolish hp h, ← map_token_map_instruction, map_instruction_place,
    map_token_instructions hp]

theorem offset_decode {code : List UInt8} (h : ofPolish p = .ok code) {k : Nat} {l : Located}
    (hl : (decode code).instructions[k]? = some l) :
    l.offset = (((decode code).instructions.take k).map Located.size).sum := by
  rw [decode_of_ofPolish hp h] at hl ⊢
  rw [offset_of_getElem?_place hl, Nat.zero_add]

theorem eq_of_ofPolish_eq {q : Polish} (hq : ∀ t ∈ q.tokens, t.IsPlain) {code : List UInt8}
    (hpc : ofPolish p = .ok code) (hqc : ofPolish q = .ok code) : p = q := by
  have h := (map_token_decode hp hpc).symm.trans (map_token_decode hq hqc)
  obtain ⟨tokens⟩ := p
  obtain ⟨others⟩ := q
  exact congrArg Polish.mk (List.reverse_injective h)

end Plain

/-- The buffers that decode to their end are the codes of plain tokens, each of
one list of them. -/
theorem fault_eq_none_iff (code : List UInt8) : (decode code).fault = none ↔
    ∃! p : Polish, (∀ t ∈ p.tokens, t.IsPlain) ∧ ofPolish p = .ok code := by
  obtain ⟨hcode, hle, hstops⟩ := ofPolish_decode code
  constructor
  · intro hnone
    have hend : stop code = code.length := by rw [stop, hnone]; rfl
    rw [hend, List.take_length] at hcode
    refine ⟨_, ⟨isPlain_decode code, hcode⟩, ?_⟩
    rintro q ⟨hq, hqc⟩
    exact eq_of_ofPolish_eq hq (isPlain_decode code) hqc hcode
  · rintro ⟨p, ⟨hp, hpc⟩, _⟩
    rw [decode_of_ofPolish hp hpc]

/-- Tokens to bytes and bytes to tokens undo each other. -/
theorem ofPolish_inverse_decode :
    (∀ p : Polish, (∀ t ∈ p.tokens, t.IsPlain) → ∃ code, ofPolish p = .ok code ∧
      (decode code).fault = none ∧
      (decode code).instructions.map Located.token = p.tokens.reverse ∧
      ∀ k l, (decode code).instructions[k]? = some l →
        l.offset = (((decode code).instructions.take k).map Located.size).sum) ∧
    (∀ code, ofPolish (decode code).polish = .ok (code.take (stop code)) ∧
      ((decode code).fault = none ↔ stop code = code.length) ∧
      (∀ b, (decode code).fault = some ⟨.unknownByte b, stop code⟩ ↔
        code[stop code]? = some b ∧ b ∉ [0x01, 0x02, 0x03, 0x04, 0x7F]) ∧
      ∀ count, (decode code).fault = some ⟨.truncated count, stop code⟩ ↔
        code[stop code]? = some 0x7F ∧ (code.drop (stop code + 1)).length = count ∧
          count < 32) ∧
    ∀ code, (decode code).fault = none ↔
      ∃! p : Polish, (∀ t ∈ p.tokens, t.IsPlain) ∧ ofPolish p = .ok code := by
  refine ⟨fun p hp => ?_, fun code => ?_, fault_eq_none_iff⟩
  · obtain ⟨code, hcode, hdecode⟩ := exists_decode_of_isPlain hp
    refine ⟨code, hcode, by rw [hdecode], map_token_decode hp hcode, fun k l hl => ?_⟩
    exact offset_decode hp hcode hl
  · obtain ⟨hcode, hle, hstops⟩ := ofPolish_decode code
    refine ⟨hcode, ?_, fun b => ?_, fun count => ?_⟩
    · rw [hstops.eq_none_iff, fetch_eq_none_iff]
      omega
    · rw [hstops.eq_some_iff, fetch_eq_unknown_iff, Opcode.ofByte?_eq_none_iff]
    · rw [hstops.eq_some_iff, fetch_eq_truncated_iff]
      rfl

/-- The larger operand ends in the bytes of a push and an addition. -/
theorem ofPolish_inverse_decode_difference :
    let p : Polish := ⟨[{ kind := .minus }, .number 0x7F01, .number 1]⟩
    (∀ t ∈ p.tokens, t.IsPlain) ∧ ∃ code, ofPolish p = .ok code ∧ (decode code).fault = none ∧
      (decode code).instructions.map Located.token =
        [.number 1, .number 0x7F01, { kind := .minus }] := by
  intro p
  have hp : ∀ t ∈ p.tokens, t.IsPlain := by
    simp only [p, List.forall_mem_cons]
    exact ⟨.inl ⟨rfl, rfl⟩, .inr ⟨0x7F01, rfl, by decide⟩, .inr ⟨1, rfl, by decide⟩,
      List.forall_mem_nil _⟩
  obtain ⟨code, hcode, hfault, htokens, _⟩ := ofPolish_inverse_decode.1 p hp
  exact ⟨hp, code, hcode, hfault, htokens⟩

end Program
end WordCalc
