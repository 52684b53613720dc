import WordCalc.Text.Basic

namespace WordCalc.Word

/-- The number of bytes in a word. -/
def size : Nat := 32

def largest : Nat := Nat.pow 2 256 - 1

def maxDigits : Nat := 78

example : (Nat.toDigits 10 largest).length = maxDigits := by decide +kernel

def Fits (n : Int) : Prop := 0 ≤ n ∧ n ≤ largest

instance (n : Int) : Decidable (Fits n) := inferInstanceAs (Decidable (_ ∧ _))

/-- The low `k` bytes of a number, the most significant first. -/
def bigEndian : Nat → Nat → List UInt8
  | 0, _ => []
  | k + 1, n => bigEndian k (n / 256) ++ [UInt8.ofNat (n % 256)]

theorem length_bigEndian (k n : Nat) : (bigEndian k n).length = k := by
  induction k generalizing n with
  | zero => rfl
  | succ k ih => rw [bigEndian, List.length_append, ih, List.length_singleton]

def ofBytes (bytes : List UInt8) : Nat := bytes.foldl (fun n b => 256 * n + b.toNat) 0

theorem ofBytes_append_singleton (bytes : List UInt8) (b : UInt8) :
    ofBytes (bytes ++ [b]) = 256 * ofBytes bytes + b.toNat := by
  rw [ofBytes, List.foldl_append]
  rfl

inductive Fault where
  | negative
  | tooBig
  deriving DecidableEq

def Fault.message : Fault → Text
  | .negative => "can't convert negative int to unsigned".toList
  | .tooBig => "int too big to convert".toList

/-- The bytes of a number, or the reason why it has none. -/
def encode (n : Int) : Except Fault (List UInt8) :=
  if n < 0 then .error .negative
  else if Nat.pow 256 size ≤ n.toNat then .error .tooBig
  else .ok (bigEndian size n.toNat)

end WordCalc.Word
