import WordCalc.Instruction
import WordCalc.Polish
import WordCalc.Hex

/-!
# Programs

Polish notation read backwards is the order in which a stack machine works, so the
program of a token list is the code of its tokens from the last to the first.
-/

namespace WordCalc.Program

inductive EncodingFault where
  /-- A token that stands for no instruction. -/
  | notPolish (kind : Token.Kind)
  /-- A number that does not fit its 32 bytes. -/
  | word (f : Word.Fault)
  deriving DecidableEq

def EncodingFault.message : EncodingFault → Text
  | .notPolish kind =>
    "Token ".toList ++ kind.name ++ " can't appear in prefix notation".toList
  | .word f => f.message

def ofToken (t : Token) : Except EncodingFault (List UInt8) :=
  match Instruction.ofToken? t with
  | none => .error (.notPolish t.kind)
  | some i => i.bytes.mapError .word

def ofPolish (p : Polish) : Except EncodingFault (List UInt8) :=
  (p.tokens.reverse.mapM ofToken).map List.flatten

inductive Cause where
  | unknownByte (b : UInt8)
  /-- A push at whose end only `count` bytes of the operand were left. -/
  | truncated (count : Nat)
  deriving DecidableEq

def Cause.summary : Cause → Text
  | .unknownByte _ => "unknown operation".toList
  | .truncated count =>
    "PUSH32 operand truncated to ".toList ++ Decimal.ofNat count ++ " bytes".toList

structure Fault where
  cause : Cause
  offset : Nat
  deriving DecidableEq

def report (summary : Text) (offset : Nat) : Text :=
  "[Bytecode error] ".toList ++ summary ++ " (at byte ".toList ++ Decimal.ofNat offset ++ [')']

def Fault.message (f : Fault) : Text := report f.cause.summary f.offset

/-- An instruction and the offset of its first byte. -/
structure Located where
  offset : Nat
  instruction : Instruction
  deriving DecidableEq

/-- The instructions before the end of a program or its first fault, and that
fault. -/
structure Decoded where
  instructions : List Located
  fault : Option Fault
  deriving DecidableEq

def Decoded.cons (l : Located) (d : Decoded) : Decoded :=
  { d with instructions := l :: d.instructions }

/-- Decodes bytes of which the first has the given offset. -/
def decodeFrom (offset : Nat) : List UInt8 → Decoded
  | [] => { instructions := [], fault := none }
  | b :: rest =>
    match Opcode.ofByte? b with
    | none => { instructions := [], fault := some ⟨.unknownByte b, offset⟩ }
    | some (.operation op) => (decodeFrom (offset + 1) rest).cons ⟨offset, .operation op⟩
    | some .push =>
      if (rest.take Word.size).length < Word.size then
        { instructions := [], fault := some ⟨.truncated (rest.take Word.size).length, offset⟩ }
      else
        (decodeFrom (offset + 1 + Word.size) (rest.drop Word.size)).cons
          ⟨offset, .push (Word.ofBytes (rest.take Word.size))⟩
termination_by code => code.length
decreasing_by
  · exact Nat.lt_succ_self _
  · simp only [List.length_drop, List.length_cons]
    omega

def decode (code : List UInt8) : Decoded := decodeFrom 0 code

def Located.line (l : Located) : Text :=
  Hex.ofNat 4 l.offset ++ ": ".toList ++ l.instruction.text

def lines (code : List UInt8) : Except Fault (List Text) :=
  match (decode code).fault with
  | some f => .error f
  | none => .ok ((decode code).instructions.map Located.line)

def listing (code : List UInt8) : Except Fault Text := (lines code).map Text.stacked

end WordCalc.Program
