import WordCalc.Decimal
import WordCalc.Word

namespace WordCalc.Literal

/-- The literal without leading zeros, one zero if nothing else is left. -/
def significant (literal : Text) : Text :=
  match literal.dropWhile (· == '0') with
  | [] => ['0']
  | digits => digits

def value? (literal : Text) : Option Int :=
  if literal.all Text.isAscii ∧ (significant literal).length ≤ Word.maxDigits then
    (Decimal.toInt? (significant literal)).filter fun n => decide (Word.Fits n)
  else none

/-- The number of characters that a report shows of a literal before it is
abridged. -/
def shownLength : Int := 24

/-- The literal itself if it has at most `limit` characters, else its first and
last ten with dots between. -/
def abridged (limit : Int) (literal : Text) : Text :=
  if literal.length ≤ limit then literal
  else literal.take 10 ++ "...".toList ++ literal.drop (literal.length - 10)

end WordCalc.Literal
