import WordCalc.Text.Basic

namespace WordCalc

structure Stack (α : Type) where
  capacity : Int
  /-- The values, the latest first. -/
  items : List α

namespace Stack

variable {α : Type}

inductive Fault where
  | overflow
  | underflow
  deriving DecidableEq

def Fault.message : Fault → Text
  | .overflow => "stack overflow".toList
  | .underflow => "stack underflow".toList

def empty (capacity : Int) : Stack α := { capacity, items := [] }

def size (s : Stack α) : Nat := s.items.length

def push (s : Stack α) (v : α) : Except Fault (Stack α) :=
  if s.capacity ≤ s.size then .error .overflow else .ok { s with items := v :: s.items }

theorem push_eq_ok_iff {s t : Stack α} {v : α} :
    s.push v = .ok t ↔ s.size < s.capacity ∧ t = { s with items := v :: s.items } := by
  unfold push
  split
  · simp only [reduceCtorEq, false_iff, not_and]
    omega
  · simp only [Except.ok.injEq]
    constructor
    · intro h
      exact ⟨by omega, h.symm⟩
    · intro h
      exact h.2.symm

def pop (s : Stack α) : Except Fault (α × Stack α) :=
  match s.items with
  | [] => .error .underflow
  | v :: rest => .ok (v, { s with items := rest })

theorem pop_push {s t : Stack α} {v : α} (h : s.push v = .ok t) : t.pop = .ok (v, s) := by
  rw [(push_eq_ok_iff.mp h).2]
  rfl

def top (s : Stack α) : Except Fault α :=
  match s.items with
  | [] => .error .underflow
  | v :: _ => .ok v

inductive Call (α : Type) where
  | push (v : α)
  | pop
  | top
  | size

inductive Reply (α : Type) where
  | done
  | value (v : α)
  | count (n : Nat)
  | fault (f : Fault)

def perform (s : Stack α) : Call α → Reply α × Stack α
  | .push v =>
    match s.push v with
    | .ok s => (.done, s)
    | .error f => (.fault f, s)
  | .pop =>
    match s.pop with
    | .ok (v, s) => (.value v, s)
    | .error f => (.fault f, s)
  | .top =>
    match s.top with
    | .ok v => (.value v, s)
    | .error f => (.fault f, s)
  | .size => (.count s.size, s)

end Stack
end WordCalc
