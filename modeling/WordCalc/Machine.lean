import WordCalc.Program
import WordCalc.Stack

/-!
# The stack machine

Decoding keeps the instructions before its own fault, so running these first and
reporting the fault of the decoder after them is the same as decoding one
instruction at a time.
-/

namespace WordCalc.Machine

inductive Fault where
  | decoding (f : Program.Fault)
  | stack (f : Stack.Fault)
  | operation (f : Operation.Fault)
  deriving DecidableEq

def Fault.message : Fault → Text
  | .decoding f => f.message
  | .stack f => f.message
  | .operation f => f.message

/-- The capacity of a stack when nothing else is asked for. -/
def defaultCapacity : Int := 1024

def step (s : Stack Int) : Instruction → Except Fault (Stack Int)
  | .push n => (s.push n).mapError .stack
  | .operation op => do
    let (a, s) ← s.pop.mapError .stack
    let (b, s) ← s.pop.mapError .stack
    let n ← (op.apply a b).mapError .operation
    (s.push n).mapError .stack

def steps (s : Stack Int) (instructions : List Instruction) : Except Fault (Stack Int) :=
  instructions.foldlM step s

theorem steps_append (s : Stack Int) (first second : List Instruction) :
    steps s (first ++ second) = (steps s first).bind fun t => steps t second :=
  List.foldlM_append

def run (capacity : Int) (code : List UInt8) : Except Fault (Stack Int) := do
  let decoded := Program.decode code
  let s ← steps (.empty capacity) (decoded.instructions.map Program.Located.instruction)
  match decoded.fault with
  | some f => .error (.decoding f)
  | none => .ok s

def execute (capacity : Int) (code : List UInt8) : Except Fault Int := do
  let s ← run capacity code
  s.top.mapError .stack

end WordCalc.Machine
