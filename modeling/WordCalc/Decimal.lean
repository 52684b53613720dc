import WordCalc.Text.Blank

namespace WordCalc.Decimal

def ofNat (n : Nat) : Text := Nat.toDigits 10 n

def ofInt (n : Int) : Text :=
  if n < 0 then '-' :: ofNat n.natAbs else ofNat n.natAbs

/-- The number of digits that an integer may have to be written, where nothing
else is set.  Zero stands for no limit. -/
def standardLimit : Nat := 4300

/-- An integer has more digits than the limit. -/
structure Fault where
  limit : Nat
  deriving DecidableEq

def Fault.message (f : Fault) : Text :=
  "Exceeds the limit (".toList ++ ofNat f.limit ++
    " digits) for integer string conversion; ".toList ++
    "use sys.set_int_max_str_digits() to increase the limit".toList

def IsWritable (limit : Nat) (n : Int) : Prop := limit = 0 ∨ (ofNat n.natAbs).length ≤ limit

instance (limit : Nat) (n : Int) : Decidable (IsWritable limit n) :=
  inferInstanceAs (Decidable (_ ∨ _))

/-- The text `ofInt n`, if the limit allows it. -/
def write (limit : Nat) (n : Int) : Except Fault Text :=
  if IsWritable limit n then .ok (ofInt n) else .error ⟨limit⟩

/-- The digits of a numeral without the underscores between them, or nothing
if the text is no such numeral. -/
def ungrouped? : Text → Option Text
  | [] => none
  | [c] => if c.isDigit then some [c] else none
  | c :: '_' :: rest => if c.isDigit then (ungrouped? rest).map (c :: ·) else none
  | c :: d :: rest => if c.isDigit then (ungrouped? (d :: rest)).map (c :: ·) else none

def toNat? (t : Text) : Option Nat := (ungrouped? t).map fun digits => Nat.ofDigitChars 10 digits 0

def toInt? (t : Text) : Option Int :=
  match Text.strip Text.isAsciiBlank t with
  | '-' :: rest => (toNat? rest).map fun n => -(n : Int)
  | '+' :: rest => (toNat? rest).map fun n => (n : Int)
  | rest => (toNat? rest).map fun n => (n : Int)

end WordCalc.Decimal
