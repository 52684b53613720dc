import WordCalc.Operation

namespace WordCalc

inductive Opcode where
  | push
  | operation (op : Operation)
  deriving DecidableEq

namespace Opcode

def name : Opcode → Text
  | .push => "PUSH32".toList
  | .operation op => op.name

def byte : Opcode → UInt8
  | .operation .add => 0x01
  | .operation .mul => 0x02
  | .operation .sub => 0x03
  | .operation .div => 0x04
  | .push => 0x7F

def all : List Opcode :=
  [.operation .add, .operation .mul, .operation .sub, .operation .div, .push]

theorem mem_all (o : Opcode) : o ∈ all := by
  cases o with
  | push => decide
  | operation op => cases op <;> decide

def ofByte? (b : UInt8) : Option Opcode := all.find? fun o => o.byte == b

theorem byte_of_ofByte? {b : UInt8} {o : Opcode} (h : ofByte? b = some o) : o.byte = b := by
  have found := List.find?_some h
  exact beq_iff_eq.mp found

theorem ofByte?_byte (o : Opcode) : ofByte? o.byte = some o := by
  cases o with
  | push => rfl
  | operation op => cases op <;> rfl

theorem ofByte?_eq_some_iff {b : UInt8} {o : Opcode} : ofByte? b = some o ↔ o.byte = b := by
  constructor
  · exact byte_of_ofByte?
  · rintro rfl
    exact ofByte?_byte o

theorem ofByte?_eq_none_iff {b : UInt8} :
    ofByte? b = none ↔ b ∉ [0x01, 0x02, 0x03, 0x04, 0x7F] := by
  show ofByte? b = none ↔ b ∉ all.map byte
  rw [ofByte?, List.find?_eq_none]
  simp only [List.mem_map, not_exists, not_and, beq_iff_eq]

def line (o : Opcode) (operand : Option Int) : Text :=
  match operand with
  | none => o.name
  | some n => o.name ++ ' ' :: Decimal.ofInt n

inductive Fault where
  | notBinary (o : Opcode)
  | operation (f : Operation.Fault)
  deriving DecidableEq

def Fault.message : Fault → Text
  | .notBinary o => "Unexpected binary opcode: ".toList ++ o.name
  | .operation f => f.message

/-- The result of the opcode as an operation on two numbers. -/
def apply (o : Opcode) (a b : Int) : Except Fault Int :=
  match o with
  | .push => .error (.notBinary o)
  | .operation op => (op.apply a b).mapError .operation

end Opcode

inductive Instruction where
  | push (value : Int)
  | operation (op : Operation)
  deriving DecidableEq

namespace Instruction

def opcode : Instruction → Opcode
  | .push _ => .push
  | .operation op => .operation op

def operand : Instruction → Option Int
  | .push n => some n
  | .operation _ => none

def text (i : Instruction) : Text := i.opcode.line i.operand

def size : Instruction → Nat
  | .push _ => 1 + Word.size
  | .operation _ => 1

def bytes : Instruction → Except Word.Fault (List UInt8)
  | .push n => (Word.encode n).map (Opcode.push.byte :: ·)
  | .operation op => .ok [(Opcode.operation op).byte]

def ofToken? (t : Token) : Option Instruction :=
  match t.kind, t.value with
  | .number, some n => some (.push n)
  | kind, _ => (Operation.ofKind? kind).map .operation

end Instruction
end WordCalc
