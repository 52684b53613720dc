import WordCalc.Calculation.Basic

namespace WordCalc.Calculation

/-- Each stage that succeeds leaves a record of its result, and the run one more
if it leaves several values. -/
inductive Record where
  | lexed (tokens : List Token)
  | grouped (polish : Polish)
  | compiled (code : List UInt8)
  | leftover (count : Nat)
  | evaluated (n : Int)
  deriving DecidableEq

/-- The name under which the record is logged. -/
def Record.logger : Record → Text
  | .leftover _ => "stackcalc.runtime".toList
  | _ => "stackcalc.api".toList

def Record.message : Record → Text
  | .lexed tokens =>
    "Lexer (str to tokens)> [".toList ++ ", ".toList.intercalate (tokens.map Token.inspect) ++ [']']
  | .grouped polish => "Parser (tokens to prefix notation)> ".toList ++ polish.text
  | .compiled code => "Compiler (prefix notation to bytecode)> ".toList ++ Hex.ofBytes code
  | .leftover count =>
    Decimal.ofNat count ++ " values left on the stack, returning the top one".toList
  | .evaluated n => "Runtime (bytecode to value)> ".toList ++ Decimal.ofInt n

def executionLog (capacity : Int) (code : List UInt8) : List Record :=
  match Machine.run capacity code with
  | .error _ => []
  | .ok s =>
    match s.top with
    | .error _ => []
    | .ok n => (if 1 < s.size then [.leftover s.size] else []) ++ [.evaluated n]

def log (capacity : Int) (source : Text) : List Record :=
  match Lexer.tokens source with
  | .error _ => []
  | .ok tokens =>
    .lexed tokens ::
      match Polish.parse Decimal.standardLimit tokens with
      | .error _ => []
      | .ok polish =>
        .grouped polish ::
          match Program.ofPolish polish with
          | .error _ => []
          | .ok code => .compiled code :: executionLog capacity code

end WordCalc.Calculation
