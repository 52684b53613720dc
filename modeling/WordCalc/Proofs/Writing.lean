import Mathlib.Algebra.Group.Int.Defs
import Mathlib.Algebra.Group.Nat.Defs
import WordCalc.Polish
import WordCalc.Proofs.Lexing

/-!
# Writing under a limit

Which tokens can be written where integers have a number of digits at most, and what
that changes in what is told of brackets.
-/

namespace WordCalc

namespace Decimal

theorem isWritable_iff {limit : Nat} {n : Int} :
    IsWritable limit n ↔ limit = 0 ∨ n.natAbs < 10 ^ limit := by
  unfold IsWritable
  rcases Nat.eq_zero_or_pos limit with h | h
  · simp only [h, true_or]
  · rw [ofNat, Nat.length_toDigits_le_iff (by decide) h]

/-- A limit that admits the digits of the largest word admits every word. -/
theorem isWritable_of_fits {limit : Nat} (hlimit : Word.maxDigits ≤ limit) {n : Int}
    (h : Word.Fits n) : IsWritable limit n := by
  have hlargest : Word.largest < 10 ^ Word.maxDigits := by decide +kernel
  have hpow : 10 ^ Word.maxDigits ≤ 10 ^ limit := Nat.pow_le_pow_right (by decide) hlimit
  obtain ⟨hpos, hle⟩ := h
  exact isWritable_iff.mpr (.inr (by omega))

theorem not_isWritable_pow {limit : Nat} (h : limit ≠ 0) : ¬ IsWritable limit (10 ^ limit) := by
  rw [isWritable_iff, not_or, Int.natAbs_pow]
  exact ⟨h, Nat.lt_irrefl _⟩

end Decimal

namespace Token

/-- No number of the tokens has more digits than the limit. -/
def Writable (limit : Nat) (tokens : List Token) : Prop :=
  ∀ n, number n ∈ tokens → Decimal.IsWritable limit n

variable {limit : Nat} {tokens : List Token}

theorem writable_zero (tokens : List Token) : Writable 0 tokens := fun _ _ => .inl rfl

theorem writable_iff :
    Writable limit tokens ↔ limit = 0 ∨ ∀ n, number n ∈ tokens → n.natAbs < 10 ^ limit := by
  unfold Writable
  simp only [Decimal.isWritable_iff]
  by_cases h : limit = 0
  · simp only [h, true_or, implies_true]
  · simp only [h, false_or]

theorem Writable.of_subset {others : List Token} (h : Writable limit tokens)
    (hsub : others ⊆ tokens) : Writable limit others :=
  fun n hn => h n (hsub hn)

theorem writable_append {a b : List Token} :
    Writable limit (a ++ b) ↔ Writable limit a ∧ Writable limit b := by
  unfold Writable
  simp only [List.mem_append, or_imp, forall_and]

theorem writable_cons {t : Token} {rest : List Token} :
    Writable limit (t :: rest) ↔ Writable limit [t] ∧ Writable limit rest :=
  writable_append (a := [t])

theorem writable_cons_of_ne_number {t : Token} (h : t.kind ≠ .number) {rest : List Token} :
    Writable limit (t :: rest) ↔ Writable limit rest := by
  have ht : Writable limit [t] := fun n hn => by
    cases List.mem_singleton.mp hn
    exact absurd rfl h
  rw [writable_cons]
  exact and_iff_right ht

theorem writable_of_isLexed (hlimit : Word.maxDigits ≤ limit) (h : ∀ t ∈ tokens, t.IsLexed) :
    Writable limit tokens := by
  intro n hn
  rcases h _ hn with ⟨m, hm, hfits⟩ | ⟨hnumber, _⟩
  · cases hm
    exact Decimal.isWritable_of_fits hlimit hfits
  · cases hnumber

theorem write_cases (limit : Nat) (t : Token) :
    (t.write limit = .ok t.text ∧ ∀ n, t = number n → Decimal.IsWritable limit n) ∨
    (t.write limit = .error ⟨limit⟩ ∧ ∃ n, t = number n ∧ ¬ Decimal.IsWritable limit n) := by
  obtain ⟨kind, value⟩ := t
  cases kind with
  | number =>
    cases value with
    | none => exact .inl ⟨rfl, fun n hn => by cases hn⟩
    | some n =>
      have hwrite : write limit ⟨.number, some n⟩ = Decimal.write limit n := rfl
      by_cases h : Decimal.IsWritable limit n
      · rw [hwrite, Decimal.write, if_pos h]
        refine .inl ⟨rfl, fun m hm => ?_⟩
        cases hm
        exact h
      · rw [hwrite, Decimal.write, if_neg h]
        exact .inr ⟨rfl, n, rfl, h⟩
  | _ => exact .inl ⟨rfl, fun n hn => by cases hn⟩

theorem writeAll_of_writable (h : Writable limit tokens) :
    writeAll limit tokens = .ok (render tokens) := by
  have hwrite : ∀ t ∈ visible tokens, t.write limit = .ok t.text := by
    intro t ht
    rcases write_cases limit t with ⟨hok, _⟩ | ⟨_, n, rfl, hn⟩
    · exact hok
    · exact absurd (h n (List.mem_of_mem_filter ht)) hn
  show ((visible tokens).mapM (write limit)).map Text.spaced = _
  rw [Outcome.mapM_eq_ok_map hwrite]
  rfl

theorem writeAll_of_not_writable (h : ¬ Writable limit tokens) :
    writeAll limit tokens = .error ⟨limit⟩ := by
  show ((visible tokens).mapM (write limit)).map Text.spaced = _
  cases hmap : (visible tokens).mapM (write limit) with
  | error f =>
    obtain ⟨_, t, _, _, _, ht⟩ := Outcome.mapM_eq_error_iff.mp hmap
    rcases write_cases limit t with ⟨hok, _⟩ | ⟨herror, _⟩
    · cases hok.symm.trans ht
    · cases herror.symm.trans ht
      rfl
  | ok parts =>
    -- every token has been written, so there is nothing to stop at
    refine absurd (fun n hn => ?_) h
    have hshown : number n ∈ visible tokens := List.mem_filter.mpr ⟨hn, rfl⟩
    obtain ⟨part, hpart⟩ := Outcome.exists_mapM_iff.mp ⟨parts, hmap⟩ _ hshown
    rcases write_cases limit (number n) with ⟨_, hall⟩ | ⟨herror, _⟩
    · exact hall n rfl
    · cases herror.symm.trans hpart

end Token

namespace Polish

open Token (Writable)

variable {limit : Nat} {tokens : List Token}

theorem tell_of_writable (h : Writable limit tokens) (summary : Text) (index : Nat) :
    tell limit summary tokens index = .ok (report summary tokens index) := by
  have hfront := h.of_subset (List.take_subset index tokens)
  rw [tell, Token.writeAll_of_writable hfront, Token.writeAll_of_writable h]
  rfl

theorem tell_of_not_writable (h : ¬ Writable limit tokens) (summary : Text) (index : Nat) :
    tell limit summary tokens index = .error ⟨limit⟩ := by
  rw [tell, Token.writeAll_of_not_writable h]
  by_cases hfront : Writable limit (tokens.take index)
  · rw [Token.writeAll_of_writable hfront]
    rfl
  · rw [Token.writeAll_of_not_writable hfront]
    rfl

theorem tokens_of_ofTokens {f : Fault} (h : ofTokens tokens = .error f) : f.tokens = tokens := by
  unfold ofTokens at h
  split at h
  · cases h
  · cases h
    rfl

/-- What comes of a fault, by what it shows. -/
theorem refusal_cases (limit : Nat) (f : Fault) :
    (f.refusal limit = .unmatched f ∧ (f.cause = .unclosed ∨ Writable limit f.tokens)) ∨
    (f.refusal limit = .unwritten ⟨limit⟩ ∧ f.cause = .unopened ∧ ¬ Writable limit f.tokens) := by
  cases hc : f.cause with
  | unclosed => exact .inl ⟨by rw [Fault.refusal, hc], .inl rfl⟩
  | unopened =>
    by_cases h : Writable limit f.tokens
    · exact .inl ⟨by rw [Fault.refusal, hc, Token.writeAll_of_writable h], .inr h⟩
    · exact .inr ⟨by rw [Fault.refusal, hc, Token.writeAll_of_not_writable h], rfl, h⟩

theorem parse_of_error {f : Fault} (h : ofTokens tokens = .error f) :
    parse limit tokens = .error (f.refusal limit) := by
  rw [parse, h]
  rfl

theorem parse_eq_ok_iff {p : Polish} : parse limit tokens = .ok p ↔ ofTokens tokens = .ok p :=
  Outcome.mapError_eq_ok_iff

theorem parse_eq_unmatched_iff {f : Fault} : parse limit tokens = .error (.unmatched f) ↔
    ofTokens tokens = .error f ∧ (f.cause = .unclosed ∨ Writable limit tokens) := by
  constructor
  · intro h
    obtain ⟨g, hg, hrefusal⟩ := Outcome.mapError_eq_error_iff.mp h
    rcases refusal_cases limit g with ⟨heq, hshown⟩ | ⟨heq, _⟩
    · cases heq.symm.trans hrefusal
      rw [tokens_of_ofTokens hg] at hshown
      exact ⟨hg, hshown⟩
    · cases heq.symm.trans hrefusal
  · rintro ⟨hf, hshown⟩
    rw [← tokens_of_ofTokens hf] at hshown
    rcases refusal_cases limit f with ⟨heq, _⟩ | ⟨_, hc, hwide⟩
    · rw [parse_of_error hf, heq]
    · rcases hshown with hcause | hw
      · cases hc.symm.trans hcause
      · exact absurd hw hwide

theorem parse_eq_unwritten_iff {g : Decimal.Fault} : parse limit tokens = .error (.unwritten g) ↔
    g = ⟨limit⟩ ∧ (∃ f, ofTokens tokens = .error f ∧ f.cause = .unopened) ∧
      ¬ Writable limit tokens := by
  constructor
  · intro h
    obtain ⟨f, hf, hrefusal⟩ := Outcome.mapError_eq_error_iff.mp h
    rcases refusal_cases limit f with ⟨heq, _⟩ | ⟨heq, hc, hwide⟩
    · cases heq.symm.trans hrefusal
    · cases heq.symm.trans hrefusal
      rw [tokens_of_ofTokens hf] at hwide
      exact ⟨rfl, ⟨f, hf, hc⟩, hwide⟩
  · rintro ⟨rfl, ⟨f, hf, hc⟩, hwide⟩
    rw [← tokens_of_ofTokens hf] at hwide
    rcases refusal_cases limit f with ⟨_, hcause | hw⟩ | ⟨heq, _⟩
    · cases hc.symm.trans hcause
    · exact absurd hw hwide
    · rw [parse_of_error hf, heq]

/-- With all numbers within the limit only brackets are refused. -/
theorem parse_of_writable (h : Writable limit tokens) :
    parse limit tokens = (ofTokens tokens).mapError .unmatched := by
  cases hp : ofTokens tokens with
  | ok p => exact parse_eq_ok_iff.mpr hp
  | error f => exact parse_eq_unmatched_iff.mpr ⟨hp, .inr h⟩

end Polish
end WordCalc
