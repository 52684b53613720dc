import WordCalc.Decimal

namespace WordCalc

namespace Token

inductive Kind where
  | bracketOpen
  | bracketClose
  | plus
  | minus
  | star
  | slash
  | number
  | blank
  deriving DecidableEq

namespace Kind

def name : Kind → Text
  | .bracketOpen => "BRACKET_OPEN".toList
  | .bracketClose => "BRACKET_CLOSE".toList
  | .plus => "PLUS".toList
  | .minus => "MINUS".toList
  | .star => "STAR".toList
  | .slash => "SLASH".toList
  | .number => "NUMBER".toList
  | .blank => "WHITESPACE".toList

def rank : Kind → Nat
  | .bracketOpen => 0
  | .bracketClose => 1
  | .plus => 2
  | .minus => 3
  | .star => 4
  | .slash => 5
  | .number => 6
  | .blank => 7

theorem rank_injective {a b : Kind} (h : a.rank = b.rank) : a = b := by
  revert h
  cases a <;> cases b <;> decide

/-- The kind that a single character stands for, if it is a sign. -/
def ofSign? : Char → Option Kind
  | '(' => some .bracketOpen
  | ')' => some .bracketClose
  | '+' => some .plus
  | '-' => some .minus
  | '*' => some .star
  | '/' => some .slash
  | _ => none

end Kind
end Token

/-- The lexer gives a value to numbers and to nothing else, but tokens also
arrive from outside, where any kind may have a value or none. -/
structure Token where
  kind : Token.Kind
  value : Option Int := none
  deriving DecidableEq

namespace Token

def number (n : Int) : Token := { kind := .number, value := some n }

/-- How a token is written in source text, whatever the length of its digits.  A
blank is written as nothing, and a number without a value has no digits to show. -/
def text (t : Token) : Text :=
  match t.kind with
  | .bracketOpen => ['(']
  | .bracketClose => [')']
  | .plus => ['+']
  | .minus => ['-']
  | .star => ['*']
  | .slash => ['/']
  | .number => (t.value.map Decimal.ofInt).getD "None".toList
  | .blank => []

/-- The text of the token, if the limit on digits allows it. -/
def write (limit : Nat) (t : Token) : Except Decimal.Fault Text :=
  match t.kind, t.value with
  | .number, some n => Decimal.write limit n
  | _, _ => .ok t.text

/-- A sign is written as the character that it is read from. -/
theorem text_of_ofSign? {c : Char} {k : Kind} (h : Kind.ofSign? c = some k) (v : Option Int) :
    text { kind := k, value := v } = [c] := by
  unfold Kind.ofSign? at h
  split at h <;> cases h <;> rfl

def inspect (t : Token) : Text :=
  "Token(type=".toList ++ t.kind.name ++ ", value=".toList ++
    (t.value.map Decimal.ofInt).getD "None".toList ++ [')']

/-- Tokens on one line, blanks left out and one space between neighbours. -/
def render (tokens : List Token) : Text :=
  Text.spaced ((tokens.filter fun t => t.kind != .blank).map text)

/-- The same line, if the limit on digits allows it. -/
def writeAll (limit : Nat) (tokens : List Token) : Except Decimal.Fault Text :=
  ((tokens.filter fun t => t.kind != .blank).mapM (write limit)).map Text.spaced

end Token
end WordCalc
