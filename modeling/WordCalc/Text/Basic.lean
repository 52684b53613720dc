namespace WordCalc

/-- Texts are lists of characters, so lengths and positions count code points. -/
abbrev Text := List Char

namespace Text

def spaced (parts : List Text) : Text := [' '].intercalate parts

/-- The parts one after another, each on a line of its own, with no line end
after the last. -/
def stacked (parts : List Text) : Text := ['\n'].intercalate parts

def strip (outer : Char → Bool) (t : Text) : Text :=
  ((t.dropWhile outer).reverse.dropWhile outer).reverse

def isAscii (c : Char) : Bool := c.toNat < 128

/-- Whether the code point lies in one of the ranges, both ends included. -/
def inRanges (ranges : List (Nat × Nat)) (c : Char) : Bool :=
  ranges.any fun r => r.1 ≤ c.toNat && c.toNat ≤ r.2

end Text
end WordCalc
