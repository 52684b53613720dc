import WordCalc.Decimal
import WordCalc.Token.Basic
import WordCalc.Word

namespace WordCalc

inductive Operation where
  | add
  | mul
  | sub
  | div
  deriving DecidableEq

namespace Operation

def name : Operation → Text
  | .add => "ADD".toList
  | .mul => "MUL".toList
  | .sub => "SUB".toList
  | .div => "DIV".toList

def noun : Operation → Text
  | .add => "Addition".toList
  | .mul => "Multiplication".toList
  | .sub => "Subtraction".toList
  | .div => "Division".toList

def ofKind? : Token.Kind → Option Operation
  | .plus => some .add
  | .minus => some .sub
  | .star => some .mul
  | .slash => some .div
  | _ => none

inductive Fault where
  | divisionByZero
  | outOfRange (op : Operation) (a b : Int)
  deriving DecidableEq

def Fault.message : Fault → Text
  | .divisionByZero => "division by zero".toList
  | .outOfRange op a b =>
    op.noun ++ " of ".toList ++ Decimal.ofInt a ++ " and ".toList ++ Decimal.ofInt b ++
      " is out of the uint256 range".toList

/-- The exact result of the operation.  The quotient by zero is a number here
too; `apply` rules that case out first. -/
def exact : Operation → Int → Int → Int
  | .add, a, b => a + b
  | .mul, a, b => a * b
  | .sub, a, b => a - b
  | .div, a, b => Int.fdiv a b

def apply (op : Operation) (a b : Int) : Except Fault Int :=
  if op = .div ∧ b = 0 then .error .divisionByZero
  else if Word.Fits (op.exact a b) then .ok (op.exact a b)
  else .error (.outOfRange op a b)

end Operation
end WordCalc
