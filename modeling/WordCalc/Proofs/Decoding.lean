import WordCalc.Proofs.Spelling
import WordCalc.Proofs.Words

namespace WordCalc

namespace Program

/-- Instructions one after another, the first of them at the offset. -/
def place (offset : Nat) : List Instruction → List Located
  | [] => []
  | i :: rest => ⟨offset, i⟩ :: place (offset + i.size) rest

theorem map_instruction_place (offset : Nat) (instructions : List Instruction) :
    (place offset instructions).map Located.instruction = instructions := by
  induction instructions generalizing offset with
  | nil => rfl
  | cons i rest ih => rw [place, List.map_cons, ih]

theorem decodeFrom_operation (op : Operation) (offset : Nat) (rest : List UInt8) :
    decodeFrom offset ((Opcode.operation op).byte :: rest) =
      (decodeFrom (offset + 1) rest).cons ⟨offset, .operation op⟩ := by
  rw [decodeFrom, Opcode.ofByte?_byte]

theorem decodeFrom_push {operand : List UInt8} (h : operand.length = Word.size) (offset : Nat)
    (rest : List UInt8) :
    decodeFrom offset (Opcode.push.byte :: (operand ++ rest)) =
      (decodeFrom (offset + 1 + Word.size) rest).cons
        ⟨offset, .push (Word.ofBytes operand)⟩ := by
  have htake : (operand ++ rest).take Word.size = operand := by
    rw [← h, List.take_left]
  have hdrop : (operand ++ rest).drop Word.size = rest := by
    rw [← h, List.drop_left]
  rw [decodeFrom, Opcode.ofByte?_byte]
  simp only [htake, hdrop, h, Nat.lt_irrefl, if_false]

theorem ofToken?_of_operation? {t : Token} {op : Operation} (h : t.operation? = some op) :
    Instruction.ofToken? t = some (.operation op) := by
  obtain ⟨kind, value⟩ := t
  cases kind <;> cases h <;> rfl

/-- The code of a token that has one, and what becomes of it. -/
theorem exists_ofToken {t : Token} (h : t.IsPolish) :
    ∃ i bytes, Instruction.ofToken? t = some i ∧ ofToken t = .ok bytes ∧ bytes.length = i.size ∧
      ∀ offset rest, decodeFrom offset (bytes ++ rest) =
        (decodeFrom (offset + i.size) rest).cons ⟨offset, i⟩ := by
  rcases h with h | ⟨n, rfl, hn⟩
  · obtain ⟨op, hop⟩ := Option.isSome_iff_exists.mp h
    have hi : Instruction.ofToken? t = some (.operation op) := ofToken?_of_operation? hop
    refine ⟨.operation op, [(Opcode.operation op).byte], hi, ?_, rfl, decodeFrom_operation op⟩
    rw [ofToken, hi]
    rfl
  · refine ⟨.push n, Opcode.push.byte :: Word.bigEndian Word.size n.toNat, rfl, ?_, ?_, ?_⟩
    · have hb : (Instruction.push n).bytes =
          .ok (Opcode.push.byte :: Word.bigEndian Word.size n.toNat) := by
        rw [Instruction.bytes, Word.encode_of_fits hn]
        rfl
      show (Instruction.push n).bytes.mapError EncodingFault.word = _
      rw [hb]
      rfl
    · rw [List.length_cons, Word.length_bigEndian]
      rfl
    · intro offset rest
      rw [List.cons_append, decodeFrom_push (Word.length_bigEndian _ _), Word.ofBytes_of_fits hn]
      rfl

/-- What the tokens of Polish notation stand for, in the order of execution. -/
def instructions (tokens : List Token) : List Instruction :=
  tokens.reverse.filterMap Instruction.ofToken?

theorem exists_mapM_ofToken {tokens : List Token} (h : ∀ t ∈ tokens, t.IsPolish) :
    ∃ chunks, tokens.mapM ofToken = .ok chunks ∧
      ∀ offset, decodeFrom offset chunks.flatten =
        { instructions := place offset (tokens.filterMap Instruction.ofToken?), fault := none } := by
  induction tokens with
  | nil =>
    refine ⟨[], rfl, fun offset => ?_⟩
    rw [List.flatten_nil, decodeFrom]
    rfl
  | cons t rest ih =>
    obtain ⟨i, bytes, hi, hb, _, hdecode⟩ := exists_ofToken (h t List.mem_cons_self)
    obtain ⟨chunks, hc, hrest⟩ := ih fun u hu => h u (List.mem_cons_of_mem t hu)
    refine ⟨bytes :: chunks, ?_, fun offset => ?_⟩
    · rw [List.mapM_cons, hb, hc]
      rfl
    · rw [List.flatten_cons, hdecode, hrest, List.filterMap_cons_some hi]
      rfl

/-- Polish notation of operators and words has a program, and decoding it gives
the instructions back. -/
theorem exists_ofPolish {p : Polish} (h : ∀ t ∈ p.tokens, t.IsPolish) :
    ∃ code, ofPolish p = .ok code ∧
      decode code = { instructions := place 0 (instructions p.tokens), fault := none } := by
  have hrev : ∀ t ∈ p.tokens.reverse, t.IsPolish := fun t ht => h t (List.mem_reverse.mp ht)
  obtain ⟨chunks, hc, hdecode⟩ := exists_mapM_ofToken hrev
  refine ⟨chunks.flatten, ?_, hdecode 0⟩
  rw [ofPolish, hc]
  rfl

theorem instructions_append (a b : List Token) :
    instructions (a ++ b) = instructions b ++ instructions a := by
  rw [instructions, List.reverse_append, List.filterMap_append]
  rfl

theorem instructions_cons {t : Token} {i : Instruction} (h : Instruction.ofToken? t = some i)
    (rest : List Token) : instructions (t :: rest) = instructions rest ++ [i] := by
  have hone : instructions [t] = [i] := by
    rw [instructions, List.reverse_singleton, List.filterMap_cons_some h]
    rfl
  rw [← List.singleton_append, instructions_append, hone]

end Program
end WordCalc
