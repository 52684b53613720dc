import Mathlib.Algebra.Group.Int.Defs
import WordCalc.Proofs.Evaluation

/-!
# The capacity of the stack

One step of the bounded machine is one of the unbounded machine and then a look at
the height (`step_eq`).  `peak` is the greatest height that the unbounded run
reaches, up to its first fault.
-/

namespace WordCalc

namespace Instruction

def isPush : Instruction → Bool
  | .push _ => true
  | .operation _ => false

def isOperation : Instruction → Bool
  | .push _ => false
  | .operation _ => true

end Instruction

/-- What is run of the code: the instructions before its end or its first
fault. -/
def Program.body (code : List UInt8) : List Instruction :=
  (decode code).instructions.map Located.instruction

namespace Machine

open Program (body)

namespace Unbounded

/-- A step on values of which there may be any number. -/
def step (items : List Int) : Instruction → Except Fault (List Int)
  | .push n => .ok (n :: items)
  | .operation op =>
    match items with
    | a :: b :: rest => ((op.apply a b).mapError .operation).map (· :: rest)
    | _ => .error (.stack .underflow)

def steps (items : List Int) (instructions : List Instruction) : Except Fault (List Int) :=
  instructions.foldlM step items

def top : List Int → Except Fault Int
  | [] => .error (.stack .underflow)
  | v :: _ => .ok v

def execute (code : List UInt8) : Except Fault Int := do
  let items ← steps [] (body code)
  match (Program.decode code).fault with
  | some f => .error (.decoding f)
  | none => top items

/-- The greatest number of values while instructions are run, up to their end or
the first fault. -/
def peak (items : List Int) : List Instruction → Nat
  | [] => items.length
  | i :: rest =>
    match step items i with
    | .error _ => items.length
    | .ok next => max items.length (peak next rest)

theorem steps_cons (items : List Int) (i : Instruction) (rest : List Instruction) :
    steps items (i :: rest) = (step items i).bind fun next => steps next rest := by
  rw [steps, List.foldlM_cons]
  rfl

/-- A push puts one value more on the stack, and an operation one for two. -/
theorem length_step {items next : List Int} {i : Instruction} (h : step items i = .ok next) :
    next.length + (if i.isOperation then 1 else 0) =
      items.length + (if i.isPush then 1 else 0) := by
  cases i with
  | push n =>
    cases h
    rfl
  | operation op =>
    match items with
    | [] => cases h
    | [a] => cases h
    | a :: b :: rest =>
      obtain ⟨v, _, rfl⟩ := Outcome.map_eq_ok_iff.mp h
      rfl

theorem peak_le (items : List Int) (instructions : List Instruction) :
    peak items instructions ≤ items.length + instructions.countP Instruction.isPush := by
  induction instructions generalizing items with
  | nil => exact Nat.le_refl _
  | cons i rest ih =>
    rw [peak, List.countP_cons]
    cases hstep : step items i with
    | error f => exact Nat.le_add_right _ _
    | ok next =>
      have hlength := length_step hstep
      have hrest := ih next
      simp only []
      omega

theorem le_peak (items : List Int) (instructions : List Instruction) :
    items.length ≤ peak items instructions := by
  cases instructions with
  | nil => exact Nat.le_refl _
  | cons i rest =>
    rw [peak]
    cases step items i with
    | error f => exact Nat.le_refl _
    | ok next => exact Nat.le_max_left _ _

/-! ## There is no overflow -/

theorem step_ne_overflow (items : List Int) (i : Instruction) :
    step items i ≠ .error (.stack .overflow) := by
  intro h
  cases i with
  | push n => cases h
  | operation op =>
    match items with
    | [] => cases h
    | [a] => cases h
    | a :: b :: rest =>
      rw [step] at h
      cases hop : op.apply a b with
      | error f =>
        rw [hop] at h
        cases h
      | ok v =>
        rw [hop] at h
        cases h

theorem steps_ne_overflow (items : List Int) (instructions : List Instruction) :
    steps items instructions ≠ .error (.stack .overflow) := by
  induction instructions generalizing items with
  | nil =>
    intro h
    cases h
  | cons i rest ih =>
    intro h
    rw [steps_cons] at h
    rcases Outcome.bind_eq_error_iff.mp h with h | ⟨next, _, h⟩
    · exact step_ne_overflow items i h
    · exact ih next h

theorem top_ne_overflow (items : List Int) : top items ≠ .error (.stack .overflow) := by
  intro h
  cases items <;> cases h

theorem execute_ne_overflow (code : List UInt8) : execute code ≠ .error (.stack .overflow) := by
  intro h
  rcases Outcome.bind_eq_error_iff.mp h with h | ⟨items, _, h⟩
  · exact steps_ne_overflow _ _ h
  · split at h
    · cases h
    · exact top_ne_overflow items h

end Unbounded

/-! ## The bounded machine -/

/-- The stack with the values, if they are not too many for it. -/
def bounded (capacity : Int) (items : List Int) : Except Fault (Stack Int) :=
  if max capacity 0 < items.length then .error (.stack .overflow) else .ok { capacity, items }

theorem bounded_of_lt {capacity : Int} {items : List Int} (h : max capacity 0 < items.length) :
    bounded capacity items = .error (.stack .overflow) := if_pos h

theorem bounded_of_le {capacity : Int} {items : List Int} (h : items.length ≤ max capacity 0) :
    bounded capacity items = .ok { capacity, items } := if_neg (Int.not_lt.mpr h)

theorem bounded_eq_ok_iff {capacity : Int} {items : List Int} {s : Stack Int} :
    bounded capacity items = .ok s ↔ items.length ≤ max capacity 0 ∧ s = { capacity, items } := by
  by_cases h : max capacity 0 < items.length
  · rw [bounded_of_lt h]
    simp only [reduceCtorEq, false_iff, not_and]
    omega
  · rw [bounded_of_le (Int.not_lt.mp h), Except.ok.injEq]
    constructor
    · rintro rfl
      exact ⟨Int.not_lt.mp h, rfl⟩
    · rintro ⟨_, rfl⟩
      rfl

theorem push_eq_bounded (s : Stack Int) (n : Int) :
    (s.push n).mapError Fault.stack = bounded s.capacity (n :: s.items) := by
  have hlength : (n :: s.items).length = s.size + 1 := rfl
  unfold Stack.push
  by_cases room : s.capacity ≤ s.size
  · rw [if_pos room, bounded_of_lt (by omega), Outcome.mapError_error]
  · rw [if_neg room, bounded_of_le (by omega), Outcome.mapError_ok]

/-- A step of the bounded machine is one of the unbounded machine and a look at
the height after it. -/
theorem step_eq (s : Stack Int) (i : Instruction) :
    step s i = (Unbounded.step s.items i).bind (bounded s.capacity) := by
  cases i with
  | push n => exact push_eq_bounded s n
  | operation op =>
    obtain ⟨capacity, items⟩ := s
    match items with
    | [] => rfl
    | [a] => rfl
    | a :: b :: rest =>
      rw [step_operation_eq, Unbounded.step]
      cases op.apply a b with
      | error f => rfl
      | ok v => exact push_eq_bounded { capacity, items := rest } v

/-- Above its peak a capacity changes nothing, and below it the run overflows. -/
theorem steps_eq {capacity : Int} {items : List Int} (hroom : items.length ≤ max capacity 0)
    (instructions : List Instruction) :
    steps { capacity, items } instructions =
      if max capacity 0 < Unbounded.peak items instructions then .error (.stack .overflow)
      else (Unbounded.steps items instructions).map fun items => { capacity, items } := by
  induction instructions generalizing items with
  | nil =>
    rw [Unbounded.peak, if_neg (Int.not_lt.mpr hroom)]
    rfl
  | cons i rest ih =>
    rw [steps_cons, step_eq, Unbounded.steps_cons, Unbounded.peak]
    cases Unbounded.step items i with
    | error f => exact (if_neg (Int.not_lt.mpr hroom)).symm
    | ok next =>
      simp only [Outcome.bind_ok]
      by_cases hover : max capacity 0 < next.length
      · have hle : next.length ≤ Unbounded.peak next rest := Unbounded.le_peak next rest
        rw [bounded_of_lt hover, if_pos (by omega)]
        rfl
      · have hnext := Int.not_lt.mp hover
        have hpeak : max capacity 0 < (max items.length (Unbounded.peak next rest) : Nat) ↔
            max capacity 0 < Unbounded.peak next rest := by omega
        rw [bounded_of_le hnext, Outcome.bind_ok, ih hnext]
        simp only [hpeak]

/-! ## Whole programs -/

/-- The greatest height of the stack when the code is run without a bound. -/
def peak (code : List UInt8) : Nat := Unbounded.peak [] (body code)

theorem peak_le (code : List UInt8) :
    peak code ≤ (Program.decode code).instructions.countP (·.instruction.isPush) := by
  have hle := Unbounded.peak_le [] (body code)
  rwa [List.length_nil, Nat.zero_add, body, List.countP_map] at hle

theorem top_eq (s : Stack Int) : s.top.mapError Fault.stack = Unbounded.top s.items := by
  obtain ⟨capacity, items⟩ := s
  cases items <;> rfl

theorem execute_eq (capacity : Int) (code : List UInt8) :
    execute capacity code =
      if max capacity 0 < peak code then .error (.stack .overflow) else Unbounded.execute code := by
  have hroom : (([] : List Int).length : Int) ≤ max capacity 0 := Int.le_max_right capacity 0
  have hsteps : steps (.empty capacity) (body code) = _ := steps_eq hroom (body code)
  show ((steps (.empty capacity) (body code)).bind _).bind _ = _
  rw [hsteps]
  by_cases hover : max capacity 0 < peak code
  · rw [if_pos hover, if_pos (show max capacity 0 < Unbounded.peak [] (body code) from hover)]
    rfl
  · rw [if_neg hover, if_neg (show ¬ max capacity 0 < Unbounded.peak [] (body code) from hover),
      Unbounded.execute]
    cases Unbounded.steps [] (body code) with
    | error f => rfl
    | ok items =>
      cases (Program.decode code).fault with
      | some f => rfl
      | none => exact top_eq { capacity, items }

/-- A capacity is a threshold: too small it makes a run overflow, and from there
on it does not matter. -/
theorem exists_threshold (code : List UInt8) :
    ∃ t : Nat, t ≤ (Program.decode code).instructions.countP (·.instruction.isPush) ∧
      ∀ capacity : Int,
        (execute capacity code = .error (.stack .overflow) ↔ max capacity 0 < t) ∧
        (t ≤ max capacity 0 → execute capacity code = Unbounded.execute code) := by
  refine ⟨peak code, peak_le code, fun capacity => ?_⟩
  rw [execute_eq]
  by_cases hover : max capacity 0 < peak code
  · rw [if_pos hover]
    exact ⟨iff_of_true rfl hover, fun h => absurd hover (Int.not_lt.mpr h)⟩
  · rw [if_neg hover]
    exact ⟨iff_of_false (Unbounded.execute_ne_overflow code) hover, fun _ => rfl⟩

/-- A stack of one value is too small for the quotient, and a larger one lets
the run get to the unknown byte. -/
theorem exists_threshold_quotient :
    let push (n : Nat) : List UInt8 := 0x7F :: Word.bigEndian 32 n
    let code := push 2 ++ push 14 ++ [0x04, 0xFF]
    (∃ t : Nat, t ≤ max (2 : Int) 0 ∧ max (1 : Int) 0 < t) ∧
      execute 2 code = Unbounded.execute code ∧
      Unbounded.execute code = .error (.decoding ⟨.unknownByte 0xFF, 67⟩) ∧
      execute 1 code = .error (.stack .overflow) := by
  intro push code
  have hcount : (Program.decode code).instructions.countP (·.instruction.isPush) = 2 := by
    decide +kernel
  have hover : execute 1 code = .error (.stack .overflow) := by decide +kernel
  obtain ⟨t, hle, h⟩ := exists_threshold code
  have hlow : max (1 : Int) 0 < t := (h 1).1.mp hover
  have hhigh : (t : Int) ≤ max 2 0 := by omega
  exact ⟨⟨t, hhigh, hlow⟩, (h 2).2 hhigh, by decide +kernel, hover⟩

end Machine
end WordCalc
