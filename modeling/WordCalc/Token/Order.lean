import WordCalc.Token.Basic

namespace WordCalc.Token

/-- What a token without a value counts as in a comparison. -/
def weight (t : Token) : Int := t.value.getD (-1)

def lt (a b : Token) : Bool :=
  a.kind.rank < b.kind.rank || (a.kind.rank == b.kind.rank && a.weight < b.weight)

def le (a b : Token) : Bool := a.lt b || a == b

def gt (a b : Token) : Bool := !a.lt b && a != b

def ge (a b : Token) : Bool := !a.lt b

/-- Tokens in ascending order; tokens of which neither is less keep their
order. -/
def sort (tokens : List Token) : List Token := tokens.mergeSort fun a b => !b.lt a

end WordCalc.Token
