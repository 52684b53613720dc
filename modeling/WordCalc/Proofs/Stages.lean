import WordCalc.Calculation.Basic
import WordCalc.Proofs.Conservation
import WordCalc.Proofs.Decoding
import WordCalc.Proofs.Writing

namespace WordCalc.Calculation

variable {source : Text} {tokens : List Token}

theorem calculate_of_lexical {f : Lexer.Fault} (hlex : Lexer.tokens source = .error f)
    (capacity : Int) : calculate capacity source = .error (.lexical f) := by
  simp only [calculate, compile, hlex, Outcome.mapError_error, Outcome.bind_eq, Outcome.bind_error]

theorem writable_of_tokens (hlex : Lexer.tokens source = .ok tokens) :
    Token.Writable Decimal.standardLimit tokens :=
  Token.writable_of_isLexed (by decide) (Lexer.isLexed_of_tokens hlex)

/-- In a source text nothing but brackets is refused. -/
theorem parse_of_tokens (hlex : Lexer.tokens source = .ok tokens) :
    Polish.parse Decimal.standardLimit tokens = (Polish.ofTokens tokens).mapError .unmatched :=
  Polish.parse_of_writable (writable_of_tokens hlex)

theorem calculate_of_grouping {f : Polish.Fault} (hlex : Lexer.tokens source = .ok tokens)
    (hp : Polish.ofTokens tokens = .error f) (capacity : Int) :
    calculate capacity source = .error (.grouping f) := by
  simp only [calculate, compile, hlex, parse_of_tokens hlex, hp, Outcome.mapError_ok,
    Outcome.mapError_error, Outcome.bind_eq, Outcome.bind_ok, Outcome.bind_error, Fault.ofRefusal]

theorem compile_of_stages {p : Polish} {code : List UInt8}
    (hlex : Lexer.tokens source = .ok tokens) (hp : Polish.ofTokens tokens = .ok p)
    (hcode : Program.ofPolish p = .ok code) :
    compile source = .ok { source, tokens, polish := p, code } := by
  simp only [compile, hlex, Outcome.mapError_ok, Outcome.bind_eq, Outcome.bind_ok,
    Polish.parse_eq_ok_iff.mpr hp, hcode]
  rfl

/-- Past the compiler only the run is left. -/
theorem calculate_of_compile {trace : Trace} (h : compile source = .ok trace) (capacity : Int) :
    calculate capacity source = (Machine.execute capacity trace.code).mapError .execution := by
  rw [calculate, h]
  rfl

/-- The tokens that get into Polish notation are as the lexer made them. -/
theorem isLexed_of_ofTokens {p : Polish} (hlex : Lexer.tokens source = .ok tokens)
    (hp : Polish.ofTokens tokens = .ok p) :
    ∀ t ∈ p.tokens, t.IsLexed ∧ t.survives = true := by
  intro t ht
  obtain ⟨hmem, hsurvives⟩ := List.mem_filter.mp ((Polish.ofTokens_perm hp).subset ht)
  exact ⟨Lexer.isLexed_of_tokens hlex t hmem, hsurvives⟩

theorem isPolish_of_ofTokens {p : Polish} (hlex : Lexer.tokens source = .ok tokens)
    (hp : Polish.ofTokens tokens = .ok p) : ∀ t ∈ p.tokens, t.IsPolish := by
  intro t ht
  obtain ⟨hlexed, hsurvives⟩ := isLexed_of_ofTokens hlex hp t ht
  exact hlexed.isPolish hsurvives

theorem calculate_of_polish {p : Polish} (hlex : Lexer.tokens source = .ok tokens)
    (hp : Polish.ofTokens tokens = .ok p) (capacity : Int) :
    calculate capacity source = ((Program.ofPolish p).mapError .encoding).bind fun code =>
      (Machine.execute capacity code).mapError .execution := by
  simp only [calculate, compile, hlex, Polish.parse_eq_ok_iff.mpr hp, Outcome.mapError_ok,
    Outcome.bind_eq, Outcome.bind_ok]
  cases Program.ofPolish p <;> rfl

/-- A source text with Polish notation has code, and its value is that of a run
of the code. -/
theorem exists_calculate {p : Polish}
    (hlex : Lexer.tokens source = .ok tokens) (hp : Polish.ofTokens tokens = .ok p) :
    (∀ t ∈ p.tokens, t.IsPolish) ∧ ∃ code,
      Program.decode code =
        { instructions := Program.place 0 (Program.instructions p.tokens), fault := none } ∧
      ∀ capacity, calculate capacity source =
        (Machine.execute capacity code).mapError .execution := by
  have hpolish := isPolish_of_ofTokens hlex hp
  obtain ⟨code, hcode, hdecode⟩ := Program.exists_ofPolish hpolish
  refine ⟨hpolish, code, hdecode, fun capacity => ?_⟩
  rw [calculate_of_polish hlex hp, hcode]
  rfl

theorem exists_ofTokens_of_calculate (hlex : Lexer.tokens source = .ok tokens)
    {capacity n : Int} (h : calculate capacity source = .ok n) :
    ∃ p, Polish.ofTokens tokens = .ok p := by
  cases hp : Polish.ofTokens tokens with
  | ok p => exact ⟨p, rfl⟩
  | error f =>
    rw [calculate_of_grouping hlex hp] at h
    cases h

end WordCalc.Calculation
