import WordCalc.Excerpt
import WordCalc.Literal
import WordCalc.Text.Digit
import WordCalc.Token.Basic

/-!
# Lexing

A source text is first cut into pieces, which cannot fail, and then each piece is
read as a token.  The first piece that is none decides.
-/

namespace WordCalc.Lexer

inductive Piece where
  | single (c : Char)
  | literal (digits : Text)
  deriving DecidableEq

def Piece.text : Piece → Text
  | .single c => [c]
  | .literal digits => digits

def pieces : Text → List Piece
  | [] => []
  | c :: rest =>
    if c.isDigit then
      .literal (c :: rest.takeWhile Text.isAnyDigit) ::
        pieces (rest.dropWhile Text.isAnyDigit)
    else .single c :: pieces rest
termination_by source => source.length
decreasing_by
  · have := (List.dropWhile_sublist (l := rest) Text.isAnyDigit).length_le
    simp only [List.length_cons]
    omega
  · exact Nat.lt_succ_self _

theorem flatMap_text_pieces (source : Text) : (pieces source).flatMap Piece.text = source := by
  fun_induction pieces source with
  | case1 => rfl
  | case2 c rest _ ih =>
    rw [List.flatMap_cons, ih]
    simp only [Piece.text, List.cons_append, List.takeWhile_append_dropWhile]
  | case3 c rest _ ih =>
    rw [List.flatMap_cons, ih]
    rfl

inductive Cause where
  /-- A character that starts no token. -/
  | character (c : Char)
  /-- A run of digits that stands for no word. -/
  | literal (digits : Text)
  deriving DecidableEq

def Cause.summary : Cause → Text
  | .character c => "Invalid character: ".toList ++ [c]
  | .literal digits =>
    "Invalid number: ".toList ++ Literal.abridged Literal.shownLength digits

structure Fault where
  cause : Cause
  source : Text
  index : Nat
  deriving DecidableEq

def report (summary source : Text) (index : Nat) : Text :=
  "[Tokenizer error] ".toList ++ summary ++ '\n' :: Excerpt.render source index

def Fault.message (f : Fault) : Text := report f.cause.summary f.source f.index

def literalValue (digits : Text) : Except Cause Int :=
  match Literal.value? digits with
  | some n => .ok n
  | none => .error (.literal digits)

def token : Piece → Except Cause Token
  | .literal digits => (literalValue digits).map Token.number
  | .single c =>
    match Token.Kind.ofSign? c with
    | some kind => .ok { kind }
    | none => if Text.isBlank c then .ok { kind := .blank } else .error (.character c)

/-- The tokens of consecutive pieces of `source`, of which the first starts at
`index`. -/
def readPieces (source : Text) (index : Nat) : List Piece → Except Fault (List Token)
  | [] => .ok []
  | piece :: rest =>
    match token piece with
    | .error cause => .error ⟨cause, source, index⟩
    | .ok t => (readPieces source (index + piece.text.length) rest).map (t :: ·)

def tokens (source : Text) : Except Fault (List Token) := readPieces source 0 (pieces source)

/-- The number that a literal stands for, when it is found at `index` in
`source`. -/
def readLiteral (digits source : Text) (index : Nat) : Except Fault Int :=
  (literalValue digits).mapError fun cause => ⟨cause, source, index⟩

end WordCalc.Lexer
