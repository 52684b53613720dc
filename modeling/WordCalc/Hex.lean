import WordCalc.Decimal

namespace WordCalc.Hex

def digits : Text := "0123456789ABCDEF".toList

def digit (n : Nat) : Char := digits.getD n '0'

def digitValue? (c : Char) : Option Nat := digits.idxOf? c.toUpper

theorem digitValue?_digit {n : Nat} (h : n < 16) : digitValue? (digit n) = some n := by
  have all : ∀ m ∈ List.range 16, digitValue? (digit m) = some m := by decide
  exact all n (List.mem_range.mpr h)

def ofByte (b : UInt8) : Text := [digit (b.toNat / 16), digit (b.toNat % 16)]

def ofBytes (bytes : List UInt8) : Text := bytes.flatMap ofByte

theorem length_ofBytes (bytes : List UInt8) : (ofBytes bytes).length = 2 * bytes.length := by
  induction bytes with
  | nil => rfl
  | cons b rest ih =>
    rw [ofBytes, List.flatMap_cons, List.length_append]
    change 2 + (ofBytes rest).length = _
    rw [ih, List.length_cons]
    omega

def ofBytesLower (bytes : List UInt8) : Text := (ofBytes bytes).map Char.toLower

def ofNat (width n : Nat) : Text :=
  ((Nat.toDigits 16 n).map Char.toUpper).leftpad width '0'

structure Fault where
  position : Nat
  deriving DecidableEq

def Fault.message (f : Fault) : Text :=
  "non-hexadecimal number found in fromhex() arg at position ".toList ++ Decimal.ofNat f.position

/-- Reads ASCII text whose first character has position `i`. -/
def read (i : Nat) : Text → Except Fault (List UInt8)
  | [] => .ok []
  | [c] =>
    if Text.isAsciiBlank c then .ok []
    else .error ⟨if (digitValue? c).isSome then i + 1 else i⟩
  | c :: d :: rest =>
    if Text.isAsciiBlank c then read (i + 1) (d :: rest)
    else
      match digitValue? c, digitValue? d with
      | none, _ => .error ⟨i⟩
      | some _, none => .error ⟨i + 1⟩
      | some high, some low => (read (i + 2) rest).map (UInt8.ofNat (16 * high + low) :: ·)

/-- A character beyond ASCII is refused before any other. -/
def toBytes (t : Text) : Except Fault (List UInt8) :=
  match t.findIdx? (fun c => !Text.isAscii c) with
  | some i => .error ⟨i⟩
  | none => read 0 t

end WordCalc.Hex
