import Mathlib.Algebra.Group.Int.Defs
import WordCalc.Proofs.Decoding

namespace WordCalc.Program

open Token

/-- A token that has no code, its fault and how the fault is told. -/
inductive Unencodable : Token → EncodingFault → Text → Prop
  | misplaced {t : Token} : t.kind = .bracketOpen ∨ t.kind = .bracketClose ∨ t.kind = .blank →
    Unencodable t (.notPolish t.kind)
      ("Token ".toList ++ t.kind.name ++ " can't appear in prefix notation".toList)
  | missing : Unencodable { kind := .number } (.notPolish .number)
      "Token NUMBER can't appear in prefix notation".toList
  | negative {n : Int} : n < 0 →
    Unencodable (.number n) (.word .negative) "can't convert negative int to unsigned".toList
  | tooBig {n : Int} : 2 ^ 256 ≤ n →
    Unencodable (.number n) (.word .tooBig) "int too big to convert".toList

/-! ## One token -/

theorem ofToken_number (n : Int) :
    ofToken (.number n) = ((Word.encode n).map (Opcode.push.byte :: ·)).mapError .word := rfl

/-- The bytes of tokens that have code, 33 for a number and one for an operator. -/
def byteCount (tokens : List Token) : Nat :=
  33 * tokens.countP isNumber + tokens.countP isOperator

theorem byteCount_cons (t : Token) (rest : List Token) :
    byteCount (t :: rest) = byteCount [t] + byteCount rest := by
  unfold byteCount
  rw [← List.singleton_append, List.countP_append, List.countP_append]
  omega

/-- The size of an instruction is that of the token it comes from. -/
theorem size_of_ofToken? {t : Token} {i : Instruction} (h : Instruction.ofToken? t = some i) :
    i.size = byteCount [t] := by
  obtain ⟨kind, value⟩ := t
  cases kind with
  | bracketOpen | bracketClose | blank => cases h
  | number =>
    cases value with
    | none => cases h
    | some n =>
      cases h
      rfl
  | plus | minus | star | slash =>
    cases h
    rfl

theorem exists_ofToken_of_isPolish {t : Token} (h : t.IsPolish) :
    ∃ bytes, ofToken t = .ok bytes ∧ bytes.length = byteCount [t] := by
  obtain ⟨i, bytes, hi, hbytes, hlength, _⟩ := exists_ofToken h
  exact ⟨bytes, hbytes, hlength.trans (size_of_ofToken? hi)⟩

theorem largest_lt_iff {n : Int} : Word.largest < n ↔ 2 ^ 256 ≤ n := by
  have hlast : (Word.largest : Int) + 1 = 2 ^ 256 := by decide
  omega

theorem Unencodable.ofToken_eq {t : Token} {f : EncodingFault} {told : Text}
    (h : Unencodable t f told) : ofToken t = .error f ∧ f.message = told := by
  cases h with
  | misplaced hkind =>
    refine ⟨?_, rfl⟩
    obtain ⟨kind, value⟩ := t
    rcases hkind with rfl | rfl | rfl <;> rfl
  | missing => exact ⟨rfl, rfl⟩
  | negative hn =>
    rw [ofToken_number, Word.encode_of_neg hn]
    exact ⟨rfl, rfl⟩
  | tooBig hn =>
    rw [ofToken_number, Word.encode_of_largest_lt (largest_lt_iff.mpr hn)]
    exact ⟨rfl, rfl⟩

theorem isPolish_or_unencodable (t : Token) :
    t.IsPolish ∨ ∃ f told, Unencodable t f told := by
  obtain ⟨kind, value⟩ := t
  cases kind with
  | bracketOpen => exact .inr ⟨_, _, .misplaced (.inl rfl)⟩
  | bracketClose => exact .inr ⟨_, _, .misplaced (.inr (.inl rfl))⟩
  | blank => exact .inr ⟨_, _, .misplaced (.inr (.inr rfl))⟩
  | plus | minus | star | slash => exact .inl (.inl rfl)
  | number =>
    cases value with
    | none => exact .inr ⟨_, _, .missing⟩
    | some n =>
      by_cases hneg : n < 0
      · exact .inr ⟨_, _, .negative hneg⟩
      · by_cases hlarge : Word.largest < n
        · exact .inr ⟨_, _, .tooBig (largest_lt_iff.mp hlarge)⟩
        · exact .inl (.inr ⟨n, rfl, Int.not_lt.mp hneg, Int.not_lt.mp hlarge⟩)

theorem exists_ofToken_iff {t : Token} : (∃ bytes, ofToken t = .ok bytes) ↔ t.IsPolish := by
  constructor
  · rintro ⟨bytes, hbytes⟩
    rcases isPolish_or_unencodable t with h | ⟨f, told, h⟩
    · exact h
    · cases h.ofToken_eq.1.symm.trans hbytes
  · intro h
    obtain ⟨bytes, hbytes, _⟩ := exists_ofToken_of_isPolish h
    exact ⟨bytes, hbytes⟩

theorem ofToken_eq_error_iff {t : Token} {f : EncodingFault} :
    ofToken t = .error f ↔ Unencodable t f f.message := by
  constructor
  · intro hf
    rcases isPolish_or_unencodable t with h | ⟨g, told, h⟩
    · obtain ⟨bytes, hbytes⟩ := exists_ofToken_iff.mpr h
      cases hbytes.symm.trans hf
    · obtain ⟨hg, htold⟩ := h.ofToken_eq
      cases hg.symm.trans hf
      rwa [htold]
  · exact fun h => h.ofToken_eq.1

/-! ## All tokens -/

theorem length_flatten_of_mapM {tokens : List Token} {chunks : List (List UInt8)}
    (h : tokens.mapM ofToken = .ok chunks) : chunks.flatten.length = byteCount tokens := by
  induction tokens generalizing chunks with
  | nil =>
    cases h
    rfl
  | cons t rest ih =>
    rw [Outcome.mapM_cons] at h
    obtain ⟨bytes, hbytes, hrest⟩ := Outcome.bind_eq_ok_iff.mp h
    obtain ⟨others, hothers, rfl⟩ := Outcome.map_eq_ok_iff.mp hrest
    obtain ⟨bytes', hbytes', hlength⟩ :=
      exists_ofToken_of_isPolish (exists_ofToken_iff.mp ⟨bytes, hbytes⟩)
    cases hbytes.symm.trans hbytes'
    rw [List.flatten_cons, List.length_append, hlength, ih hothers, ← byteCount_cons]

theorem byteCount_reverse (tokens : List Token) : byteCount tokens.reverse = byteCount tokens := by
  rw [byteCount, List.countP_reverse, List.countP_reverse, byteCount]

theorem exists_ofPolish_iff {p : Polish} :
    (∃ code, ofPolish p = .ok code) ↔ ∀ t ∈ p.tokens, t.IsPolish := by
  have hall : (∃ chunks, p.tokens.reverse.mapM ofToken = .ok chunks) ↔
      ∀ t ∈ p.tokens, t.IsPolish := by
    simp only [Outcome.exists_mapM_iff, List.mem_reverse, exists_ofToken_iff]
  rw [← hall]
  simp only [ofPolish, Outcome.map_eq_ok_iff]
  constructor
  · rintro ⟨_, chunks, hchunks, _⟩
    exact ⟨chunks, hchunks⟩
  · rintro ⟨chunks, hchunks⟩
    exact ⟨_, chunks, hchunks, rfl⟩

/-- The first fault of the reversed tokens is the last of the tokens themselves. -/
theorem ofPolish_eq_error_iff {p : Polish} {f : EncodingFault} :
    ofPolish p = .error f ↔ ∃ front t back, p.tokens = front ++ t :: back ∧
      (∀ u ∈ back, u.IsPolish) ∧ Unencodable t f f.message := by
  rw [ofPolish, Outcome.map_eq_error_iff, Outcome.mapM_eq_error_iff]
  constructor
  · rintro ⟨back, t, front, heq, hback, ht⟩
    refine ⟨front.reverse, t, back.reverse, ?_, fun u hu => ?_, ofToken_eq_error_iff.mp ht⟩
    · rw [← List.reverse_reverse p.tokens, heq]
      simp
    · exact exists_ofToken_iff.mp (hback u (List.mem_reverse.mp hu))
  · rintro ⟨front, t, back, heq, hback, ht⟩
    refine ⟨back.reverse, t, front.reverse, ?_, fun u hu => ?_, ofToken_eq_error_iff.mpr ht⟩
    · rw [heq]
      simp
    · exact exists_ofToken_iff.mpr (hback u (List.mem_reverse.mp hu))

/-- Tokens have code if all of them are operators or words, 33 bytes for a word
and one for an operator.  If they have none, the last of them that is neither
says why. -/
theorem ofPolish_by_last_fault (p : Polish) :
    ((∃ code, ofPolish p = .ok code) ↔ ∀ t ∈ p.tokens, t.IsPolish) ∧
    (∀ code, ofPolish p = .ok code →
      code.length = 33 * p.tokens.countP isNumber + p.tokens.countP isOperator) ∧
    ∀ f, ofPolish p = .error f ↔ ∃ front t back, p.tokens = front ++ t :: back ∧
      (∀ u ∈ back, u.IsPolish) ∧ Unencodable t f f.message := by
  refine ⟨exists_ofPolish_iff, fun code hcode => ?_, fun f => ofPolish_eq_error_iff⟩
  obtain ⟨chunks, hchunks, rfl⟩ := Outcome.map_eq_ok_iff.mp hcode
  rw [length_flatten_of_mapM hchunks, byteCount_reverse]
  rfl

/-- An operator may carry a value, and of three faults the last one is told. -/
theorem ofPolish_by_last_fault_tooBig :
    let p : Polish := ⟨[{ kind := .minus, value := some (-5) }, .number Word.largest, .number 7]⟩
    let q : Polish := ⟨[.number (-1), { kind := .bracketOpen }, .number (2 ^ 256), .number 7]⟩
    (∃ code, ofPolish p = .ok code ∧ code.length = 67) ∧ ofPolish q = .error (.word .tooBig) := by
  intro p q
  have hseven : (Token.number 7).IsPolish := .inr ⟨7, rfl, by decide⟩
  have hp : ∀ t ∈ p.tokens, t.IsPolish := by
    simp only [p, List.forall_mem_cons]
    exact ⟨.inl rfl, .inr ⟨_, rfl, by decide⟩, hseven, List.forall_mem_nil _⟩
  obtain ⟨code, hcode⟩ := (ofPolish_by_last_fault p).1.mpr hp
  refine ⟨⟨code, hcode, (ofPolish_by_last_fault p).2.1 code hcode⟩, ?_⟩
  refine ((ofPolish_by_last_fault q).2.2 _).mpr
    ⟨[.number (-1), { kind := .bracketOpen }], .number (2 ^ 256), [.number 7], rfl, ?_,
      .tooBig (Int.le_refl _)⟩
  exact List.forall_mem_singleton.mpr hseven

end WordCalc.Program
