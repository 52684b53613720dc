import WordCalc.Operation

namespace WordCalc

inductive Associativity where
  | left
  | right
  deriving DecidableEq

structure Operator where
  precedence : Int
  associativity : Associativity
  arity : Nat
  deriving DecidableEq

namespace Operator

def additive : Operator := { precedence := 0, associativity := .left, arity := 2 }

def multiplicative : Operator := { precedence := 1, associativity := .left, arity := 2 }

def ofOperation : Operation → Operator
  | .add | .sub => additive
  | .mul | .div => multiplicative

def ofKind? (k : Token.Kind) : Option Operator := (Operation.ofKind? k).map ofOperation

def isLooserThan (a b : Operator) : Bool := a.precedence < b.precedence

/-- Whether the incoming operator sends a waiting one to the output before it
waits itself.  Tokens come from the right, which turns associativity round. -/
def displaces (incoming waiting : Operator) : Bool :=
  incoming.isLooserThan waiting ||
    (incoming.precedence == waiting.precedence && incoming.associativity == .right)

/-- The four operations all group to the left, so a waiting one leaves only for
a looser one. -/
theorem displaces_ofOperation (a b : Operation) :
    (ofOperation a).displaces (ofOperation b) = (ofOperation a).isLooserThan (ofOperation b) := by
  cases a <;> cases b <;> rfl

end Operator
end WordCalc
