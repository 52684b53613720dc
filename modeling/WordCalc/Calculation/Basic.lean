import WordCalc.Machine
import WordCalc.Lexer

/-!
# Calculations

From a source text to its value: lexing, Polish notation, code, a run.  A fault
of any stage ends the calculation.
-/

namespace WordCalc

namespace Calculation

inductive Fault where
  | lexical (f : Lexer.Fault)
  | grouping (f : Polish.Fault)
  | encoding (f : Program.EncodingFault)
  | execution (f : Machine.Fault)
  | writing (f : Decimal.Fault)
  deriving DecidableEq

def Fault.ofRefusal : Polish.Refusal → Fault
  | .unmatched f => .grouping f
  | .unwritten f => .writing f

def Fault.message : Fault → Text
  | .lexical f => f.message
  | .grouping f => f.message
  | .encoding f => f.message
  | .execution f => f.message
  | .writing f => f.message

/-- The message, if the limit on digits allows it. -/
def Fault.told (limit : Nat) : Fault → Except Decimal.Fault Text
  | .grouping f => f.told limit
  | f => .ok f.message

/-- Whether the fault is one to tell the user about. -/
def Fault.isUser : Fault → Bool
  | .encoding _ | .writing _ => false
  | _ => true

/-- The forms that a source text takes on the way to its code. -/
structure Trace where
  source : Text
  tokens : List Token
  polish : Polish
  code : List UInt8
  deriving DecidableEq

def compile (source : Text) : Except Fault Trace := do
  let tokens ← (Lexer.tokens source).mapError .lexical
  let polish ← (Polish.parse Decimal.standardLimit tokens).mapError .ofRefusal
  let code ← (Program.ofPolish polish).mapError .encoding
  return { source, tokens, polish, code }

def calculate (capacity : Int) (source : Text) : Except Fault Int := do
  let trace ← compile source
  (Machine.execute capacity trace.code).mapError .execution

inductive Answer where
  | value (n : Int)
  | complaint (message : Text)
  deriving DecidableEq

def Answer.text : Answer → Text
  | .value n => Decimal.ofInt n
  | .complaint message => message

/-- The answer on a stack of the default capacity. -/
def answer (source : Text) : Except Fault Answer :=
  match calculate Machine.defaultCapacity source with
  | .ok n => .ok (.value n)
  | .error f =>
    if f.isUser then ((f.told Decimal.standardLimit).map .complaint).mapError .writing
    else .error f

end Calculation
end WordCalc
