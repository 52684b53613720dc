import WordCalc.Proofs.Context
import WordCalc.Proofs.Seams
import WordCalc.Proofs.Stages

/-!
# Blanks

To a scan a blank is a stretch that puts nothing out.  The index of a refused
bracket moves, but the report shows only what is not blank.
-/

namespace WordCalc

namespace Token

theorem visible_append (a b : List Token) : visible (a ++ b) = visible a ++ visible b :=
  List.filter_append a b

theorem visible_replicate_blank {t : Token} (h : t.kind = .blank) (n : Nat) :
    visible (List.replicate n t) = [] :=
  List.filter_replicate_of_neg (by simp [h])

theorem render_eq (tokens : List Token) :
    render tokens = Text.spaced ((visible tokens).map text) := rfl

theorem render_eq_of_visible_eq {a b : List Token} (h : visible a = visible b) :
    render a = render b := by
  rw [render_eq, render_eq, h]

end Token

namespace Polish

open Token

/-- What is told of a fault: its kind and its text. -/
def Fault.shown (f : Fault) : Cause × Text := (f.cause, f.message)

/-- The text of a fault shows the tokens that are not blank, and where the bracket
stands among them. -/
theorem Fault.message_eq {f g : Fault} (hcause : f.cause = g.cause)
    (htokens : visible f.tokens = visible g.tokens)
    (hplace : visible (f.tokens.take f.index) = visible (g.tokens.take g.index)) :
    f.message = g.message := by
  unfold message report summary
  rw [render_eq_of_visible_eq hplace, render_eq_of_visible_eq htokens, hcause]

section Blank

variable {t : Token} (ht : t.kind = .blank) (before after : List Token)

include ht

theorem visible_insert : visible (before ++ t :: after) = visible (before ++ after) := by
  rw [visible_append, visible_cons_blank ht, visible_append]

theorem visible_take_insert (index : Nat) :
    visible ((before ++ t :: after).take (widen before.length 1 index)) =
      visible ((before ++ after).take index) := by
  by_cases h : index < before.length
  · rw [widen_of_lt h, List.take_append_of_le_length (by omega),
      List.take_append_of_le_length (by omega)]
  · obtain ⟨k, rfl⟩ := Nat.exists_eq_add_of_le (Nat.not_lt.mp h)
    rw [widen_add, Nat.add_assoc, Nat.add_comm 1 k, List.take_length_add_append,
      List.take_length_add_append, List.take_succ_cons, visible_insert ht]

theorem ofTokens_insert :
    (ofTokens (before ++ t :: after)).mapError Fault.shown =
      (ofTokens (before ++ after)).mapError Fault.shown := by
  rcases ofTokens_around before after with ⟨front, back, hplace⟩ | ⟨cause, index, hrefused⟩
  · have hwith : ofTokens (before ++ t :: after) = .ok ⟨front ++ back⟩ :=
      hplace [t] [] (putsOut_blank ht)
    have hwithout : ofTokens (before ++ after) = .ok ⟨front ++ back⟩ := hplace [] [] putsOut_nil
    rw [hwith, hwithout]
  · have hwith : ofTokens (before ++ t :: after) =
        .error ⟨⟨cause, widen before.length 1 index⟩, before ++ t :: after⟩ :=
      hrefused [t] [] (putsOut_blank ht)
    have hwithout : ofTokens (before ++ after) = .error ⟨⟨cause, index⟩, before ++ after⟩ := by
      have := hrefused [] [] putsOut_nil
      rwa [List.nil_append, List.length_nil, widen_zero] at this
    rw [hwith, hwithout, Outcome.mapError_error, Outcome.mapError_error]
    exact congrArg (fun message => Except.error (cause, message)) (Fault.message_eq rfl
      (visible_insert ht before after) (visible_take_insert ht before after index))

end Blank

theorem ofTokens_append_visible (before tokens : List Token) :
    (ofTokens (before ++ tokens)).mapError Fault.shown =
      (ofTokens (before ++ visible tokens)).mapError Fault.shown := by
  induction tokens generalizing before with
  | nil => rfl
  | cons t rest ih =>
    by_cases ht : t.kind = .blank
    · rw [ofTokens_insert ht, visible_cons_blank ht, ih]
    · have := ih (before ++ [t])
      rw [List.append_assoc, List.append_assoc] at this
      rwa [visible_cons ht]

/-- Lists that differ only in blanks have the same outcome as it is told. -/
theorem ofTokens_eq_of_visible_eq {tokens tokens' : List Token}
    (h : visible tokens = visible tokens') :
    (ofTokens tokens).mapError Fault.shown = (ofTokens tokens').mapError Fault.shown := by
  rw [← List.nil_append tokens, ofTokens_append_visible, h, ← ofTokens_append_visible]
  rfl

end Polish

namespace Calculation

/-- The kinds of faults. -/
inductive Fault.Kind where
  | character
  | literal
  | unclosed
  | unopened
  | notPolish
  | word
  | unknownByte
  | truncated
  | overflow
  | underflow
  | divisionByZero
  | outOfRange
  | unwritten
  deriving DecidableEq

def Fault.kind : Fault → Kind
  | .lexical ⟨.character _, _, _⟩ => .character
  | .lexical ⟨.literal _, _, _⟩ => .literal
  | .grouping ⟨⟨.unclosed, _⟩, _⟩ => .unclosed
  | .grouping ⟨⟨.unopened, _⟩, _⟩ => .unopened
  | .encoding (.notPolish _) => .notPolish
  | .encoding (.word _) => .word
  | .execution (.decoding ⟨.unknownByte _, _⟩) => .unknownByte
  | .execution (.decoding ⟨.truncated _, _⟩) => .truncated
  | .execution (.stack .overflow) => .overflow
  | .execution (.stack .underflow) => .underflow
  | .execution (.operation .divisionByZero) => .divisionByZero
  | .execution (.operation (.outOfRange _ _ _)) => .outOfRange
  | .writing _ => .unwritten

/-- What is told of a fault: its kind and its text. -/
def Fault.shown (f : Fault) : Kind × Text := (f.kind, f.message)

theorem Fault.shown_grouping {f g : Polish.Fault} (h : f.shown = g.shown) :
    (Fault.grouping f).shown = (Fault.grouping g).shown := by
  obtain ⟨⟨cause, index⟩, tokens⟩ := f
  obtain ⟨⟨cause', index'⟩, tokens'⟩ := g
  obtain ⟨hcause, hmessage⟩ := Prod.mk.inj h
  simp only at hcause
  subst hcause
  have hkind : (Fault.grouping ⟨⟨cause, index⟩, tokens⟩).kind =
      (Fault.grouping ⟨⟨cause, index'⟩, tokens'⟩).kind := by
    cases cause <;> rfl
  exact Prod.ext hkind hmessage

/-- Texts whose tokens differ only in blanks have the same outcome as it is
told. -/
theorem calculate_eq_of_visible_eq {source source' : Text} {tokens tokens' : List Token}
    (hlex : Lexer.tokens source = .ok tokens) (hlex' : Lexer.tokens source' = .ok tokens')
    (h : Token.visible tokens = Token.visible tokens') (capacity : Int) :
    (calculate capacity source).mapError Fault.shown =
      (calculate capacity source').mapError Fault.shown := by
  have hpolish := Polish.ofTokens_eq_of_visible_eq h
  cases hp : Polish.ofTokens tokens with
  | ok p =>
    rw [hp] at hpolish
    have hp' : Polish.ofTokens tokens' = .ok p := Outcome.mapError_eq_ok_iff.mp hpolish.symm
    rw [calculate_of_polish hlex hp, calculate_of_polish hlex' hp']
  | error f =>
    rw [hp] at hpolish
    obtain ⟨g, hg, hshown⟩ := Outcome.mapError_eq_error_iff.mp hpolish.symm
    rw [calculate_of_grouping hlex hp, calculate_of_grouping hlex' hg, Outcome.mapError_error,
      Outcome.mapError_error, Fault.shown_grouping hshown]

/-- Blanks put in anywhere but within a literal change nothing of what is told. -/
theorem calculate_insert_blanks {before blanks after : Text} {tokens : List Token}
    (hlex : Lexer.tokens (before ++ after) = .ok tokens)
    (hblanks : ∀ c ∈ blanks, Text.isBlank c = true)
    (hplace : ¬ Lexer.WithinLiteral (before ++ after) before.length) (capacity : Int) :
    (calculate capacity (before ++ (blanks ++ after))).mapError Fault.shown =
      (calculate capacity (before ++ after)).mapError Fault.shown := by
  obtain ⟨us, vs, rfl, hinserted⟩ := Lexer.tokens_insert_blanks hlex hblanks hplace
  refine calculate_eq_of_visible_eq hinserted hlex ?_ capacity
  simp only [Token.visible_append, Token.visible_replicate_blank, List.nil_append]

/-- A tab and a space in `7 *(12+3`, in front of the bracket that is refused. -/
theorem calculate_insert_blanks_unclosed :
    let before := "7 *".toList
    let blanks := "\t ".toList
    let after := "(12+3".toList
    (∀ c ∈ blanks, Text.isBlank c = true) ∧
      ¬ Lexer.WithinLiteral (before ++ after) before.length ∧
      (calculate 2 (before ++ (blanks ++ after))).mapError Fault.shown = .error (.unclosed,
        "Parser error: Mismatched parenthesis\n7 * ( 12 + 3\n    ^".toList) := by
  intro before blanks after
  have hlex : Lexer.tokens (before ++ after) = .ok [.number 7, { kind := .blank },
      { kind := .star }, { kind := .bracketOpen }, .number 12, { kind := .plus }, .number 3] := by
    decide +kernel
  have hall : blanks.all Text.isBlank = true := by decide
  have hblanks : ∀ c ∈ blanks, Text.isBlank c = true := List.all_eq_true.mp hall
  have hplace : ¬ Lexer.WithinLiteral (before ++ after) before.length := by
    intro hwithin
    obtain ⟨d, hd, hdigit⟩ := hwithin.exists_isAnyDigit
    cases hd
    exact absurd hdigit (by decide)
  refine ⟨hblanks, hplace, (calculate_insert_blanks hlex hblanks hplace 2).trans ?_⟩
  decide +kernel

end Calculation
end WordCalc
