import Mathlib.Algebra.Group.Int.Defs
import WordCalc.Machine
import WordCalc.Proofs.Outcome

namespace WordCalc

inductive Expr where
  | number (n : Int)
  | binary (op : Operation) (left right : Expr)
  deriving DecidableEq

namespace Expr

/-- The exact result `n` of an operation on `l` and `r`, if it is a word. -/
def bounded (op : Operation) (l r n : Int) : Except Machine.Fault Int :=
  if 0 ≤ n ∧ n ≤ 2 ^ 256 - 1 then .ok n else .error (.operation (.outOfRange op l r))

def combine : Operation → Int → Int → Except Machine.Fault Int
  | .add, l, r => bounded .add l r (l + r)
  | .mul, l, r => bounded .mul l r (l * r)
  | .sub, l, r => bounded .sub l r (l - r)
  | .div, l, r =>
    if r = 0 then .error (.operation .divisionByZero) else bounded .div l r (l.fdiv r)

theorem bounded_eq (op : Operation) (l r n : Int) :
    bounded op l r n =
      if Word.Fits n then .ok n else .error (.operation (.outOfRange op l r)) := by
  have h : (0 ≤ n ∧ n ≤ 2 ^ 256 - 1) ↔ Word.Fits n := Iff.rfl
  simp only [bounded, h]

theorem combine_eq_apply (op : Operation) (l r : Int) :
    combine op l r = (op.apply l r).mapError .operation := by
  have hsplit (n : Int) : (if Word.Fits n then Except.ok n
      else .error (.operation (.outOfRange op l r)) : Except Machine.Fault Int) =
      (if Word.Fits n then Except.ok n else .error (.outOfRange op l r)).mapError .operation := by
    by_cases h : Word.Fits n
    · rw [if_pos h, if_pos h, Outcome.mapError_ok]
    · rw [if_neg h, if_neg h, Outcome.mapError_error]
  cases op with
  | div =>
    by_cases hr : r = 0
    · simp [combine, Operation.apply, hr]
    · simp only [combine, Operation.apply, hr, and_false, if_false, bounded_eq]
      exact hsplit _
  | _ =>
    simp only [combine, Operation.apply, reduceCtorEq, false_and, if_false, bounded_eq]
    exact hsplit _

end Expr

namespace Machine.Fault

def nouns : List (Operation × Text) :=
  [(.add, "Addition".toList), (.mul, "Multiplication".toList), (.sub, "Subtraction".toList),
   (.div, "Division".toList)]

/-- A fault of the stack or of the arithmetic and how it is told. -/
inductive Says : Fault → Text → Prop
  | overflow : Says (.stack .overflow) "stack overflow".toList
  | underflow : Says (.stack .underflow) "stack underflow".toList
  | divisionByZero : Says (.operation .divisionByZero) "division by zero".toList
  | outOfRange {op : Operation} {noun : Text} (l r : Int) : (op, noun) ∈ nouns →
    Says (.operation (.outOfRange op l r)) (noun ++ " of ".toList ++ Decimal.ofInt l ++
      " and ".toList ++ Decimal.ofInt r ++ " is out of the uint256 range".toList)

theorem says_message {f : Fault} (h : ∀ g, f ≠ .decoding g) : f.Says f.message := by
  cases f with
  | decoding g => exact absurd rfl (h g)
  | stack g =>
    cases g with
    | overflow => exact .overflow
    | underflow => exact .underflow
  | operation g =>
    cases g with
    | divisionByZero => exact .divisionByZero
    | outOfRange op l r =>
      have hnoun : (op, op.noun) ∈ nouns := by cases op <;> decide
      exact .outOfRange l r hnoun

end Machine.Fault

namespace Expr

/-- The value of a tree above `depth` values on a stack of the capacity, or the
first fault.  The left operand is computed on top of the value of the right one. -/
def eval (capacity : Int) : Expr → Nat → Except Machine.Fault Int
  | .number n, depth => if capacity ≤ depth then .error (.stack .overflow) else .ok n
  | .binary op l r, depth => do
    let b ← r.eval capacity depth
    let a ← l.eval capacity (depth + 1)
    combine op a b

/-- The values of neighbouring trees.  The last tree is computed first, at the
bottom of the stack, and each other one above all those after it. -/
def evalAll (capacity : Int) : List Expr → Except Machine.Fault (List Int)
  | [] => .ok []
  | e :: rest => do
    let values ← evalAll capacity rest
    let v ← e.eval capacity rest.length
    return v :: values

/-- The value of the first of neighbouring trees, once those after it have
theirs. -/
def evalFirst (capacity : Int) (first : Expr) (rest : List Expr) : Except Machine.Fault Int := do
  let _ ← evalAll capacity rest
  first.eval capacity rest.length

theorem eval_binary (capacity : Int) (op : Operation) (l r : Expr) (depth : Nat) :
    (Expr.binary op l r).eval capacity depth =
      (r.eval capacity depth).bind fun b =>
        (l.eval capacity (depth + 1)).bind fun a => combine op a b := rfl

theorem evalAll_cons (capacity : Int) (e : Expr) (rest : List Expr) :
    evalAll capacity (e :: rest) =
      (evalAll capacity rest).bind fun values =>
        (e.eval capacity rest.length).map (· :: values) := rfl

/-- A tree has a value only where there is room for one: the first push of its
program is made at the depth of the tree itself. -/
theorem lt_of_eval_eq_ok {capacity : Int} {e : Expr} {depth : Nat} {v : Int}
    (h : e.eval capacity depth = .ok v) : (depth : Int) < capacity := by
  induction e generalizing depth v with
  | number n =>
    by_cases room : capacity ≤ depth
    · rw [eval, if_pos room] at h
      cases h
    · omega
  | binary op l r _ ihr =>
    rw [eval_binary, Outcome.bind_eq_ok_iff] at h
    obtain ⟨b, hb, _⟩ := h
    exact ihr hb

theorem length_of_evalAll_eq_ok {capacity : Int} {trees : List Expr} {values : List Int}
    (h : evalAll capacity trees = .ok values) : values.length = trees.length := by
  induction trees generalizing values with
  | nil =>
    cases h
    rfl
  | cons e rest ih =>
    rw [evalAll_cons, Outcome.bind_eq_ok_iff] at h
    obtain ⟨tail, htail, hv⟩ := h
    obtain ⟨v, _, rfl⟩ := Outcome.map_eq_ok_iff.mp hv
    rw [List.length_cons, List.length_cons, ih htail]

end Expr
end WordCalc
