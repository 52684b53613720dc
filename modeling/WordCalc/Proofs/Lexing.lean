import WordCalc.Lexer
import WordCalc.Proofs.Outcome
import WordCalc.Proofs.Tokens

namespace WordCalc

namespace Token

/-- A token as the lexer makes it. -/
def IsLexed (t : Token) : Prop :=
  (∃ n, t = number n ∧ Word.Fits n) ∨ (t.isNumber = false ∧ t.value = none)

theorem IsLexed.exists_number {t : Token} (h : t.IsLexed) (ht : t.isNumber = true) :
    ∃ n, t = number n ∧ Word.Fits n := by
  rcases h with h | ⟨hn, _⟩
  · exact h
  · rw [ht] at hn
    cases hn

theorem IsLexed.isPolish {t : Token} (h : t.IsLexed) (hs : t.survives = true) : t.IsPolish := by
  rw [survives, Bool.or_eq_true] at hs
  rcases hs with hn | ho
  · exact .inr (h.exists_number hn)
  · exact .inl ho

end Token

namespace Lexer

theorem fits_of_value? {literal : Text} {n : Int} (h : Literal.value? literal = some n) :
    Word.Fits n := by
  unfold Literal.value? at h
  split at h
  · have hfilter := (Option.filter_eq_some_iff.mp h).2
    exact of_decide_eq_true hfilter
  · cases h

theorem isLexed_of_token {piece : Piece} {t : Token} (h : token piece = .ok t) : t.IsLexed := by
  cases piece with
  | literal digits =>
    obtain ⟨n, hn, rfl⟩ := Outcome.map_eq_ok_iff.mp h
    unfold literalValue at hn
    split at hn
    · next m hm =>
      cases hn
      exact .inl ⟨n, rfl, fits_of_value? hm⟩
    · cases hn
  | single c =>
    rw [token] at h
    cases hsign : Token.Kind.ofSign? c with
    | some kind =>
      rw [hsign] at h
      cases h
      refine .inr ⟨?_, rfl⟩
      unfold Token.Kind.ofSign? at hsign
      split at hsign <;> cases hsign <;> rfl
    | none =>
      rw [hsign] at h
      by_cases hblank : Text.isBlank c = true
      · simp only [hblank, if_true] at h
        cases h
        exact .inr ⟨rfl, rfl⟩
      · simp only [hblank] at h
        cases h

theorem isLexed_of_readPieces {source : Text} {index : Nat} {ps : List Piece}
    {tokens : List Token} (h : readPieces source index ps = .ok tokens) :
    ∀ t ∈ tokens, t.IsLexed := by
  induction ps generalizing index tokens with
  | nil =>
    cases h
    exact List.forall_mem_nil _
  | cons piece rest ih =>
    rw [readPieces] at h
    split at h
    · cases h
    · next t ht =>
      obtain ⟨others, hothers, rfl⟩ := Outcome.map_eq_ok_iff.mp h
      exact List.forall_mem_cons.mpr ⟨isLexed_of_token ht, ih hothers⟩

theorem isLexed_of_tokens {source : Text} {ts : List Token} (h : tokens source = .ok ts) :
    ∀ t ∈ ts, t.IsLexed := isLexed_of_readPieces h

end Lexer
end WordCalc
