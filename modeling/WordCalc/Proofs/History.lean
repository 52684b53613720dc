import WordCalc.Proofs.Capacity
import WordCalc.Proofs.Range

/-!
# What has been run

`Runs` keeps the instructions that led to a state, so that the height of the stack
can be held against them.  `Accounts` is the invariant.
-/

namespace WordCalc

namespace Operation

variable {a b : Int}

theorem apply_sub_of_fits (ha : Word.Fits a) (hb : Word.Fits b) :
    sub.apply a b = if a < b then .error (.outOfRange .sub a b) else .ok (a - b) := by
  have hfits : Word.Fits (a - b) ↔ ¬ a < b := by
    unfold Word.Fits at *
    omega
  rw [apply, if_neg (by simp), exact]
  by_cases h : a < b
  · rw [if_pos h, if_neg (by rwa [hfits, not_not])]
  · rw [if_neg h, if_pos (hfits.mpr h)]

/-- The quotient of words is at most the dividend, and rounding down is rounding
towards zero. -/
theorem apply_div_of_fits (ha : Word.Fits a) (hb : Word.Fits b) :
    div.apply a b = if b = 0 then .error .divisionByZero else .ok (a.tdiv b) := by
  have hquot : exact .div a b = a.tdiv b := Int.fdiv_eq_tdiv_of_nonneg ha.1 hb.1
  have hfits : Word.Fits (a.tdiv b) :=
    ⟨Int.tdiv_nonneg ha.1 hb.1, Int.le_trans (Int.tdiv_le_self b ha.1) ha.2⟩
  rw [apply, hquot]
  by_cases h : b = 0
  · rw [if_pos h, if_pos ⟨rfl, h⟩]
  · rw [if_neg h, if_neg (fun hzero => h hzero.2), if_pos hfits]

theorem eq_of_apply_eq_outOfRange {op op' : Operation} {a' b' : Int}
    (h : op.apply a b = .error (.outOfRange op' a' b')) : op' = op := by
  unfold apply at h
  split at h
  · cases h
  · split at h
    · cases h
    · cases h
      rfl

end Operation

namespace Machine

open Program (fetch)

variable {code : List UInt8} {capacity : Int}

/-- The instructions, the first ones of the code, lead from an empty stack to
the state. -/
inductive Runs (code : List UInt8) (capacity : Int) : List Instruction → State → Prop
  | start : Runs code capacity [] ⟨0, .empty capacity⟩
  | turn {done : List Instruction} {offset : Nat} {i : Instruction} {s t : Stack Int} :
    Runs code capacity done ⟨offset, s⟩ → fetch code offset = some (.ok i) → step s i = .ok t →
      Runs code capacity (done ++ [i]) ⟨offset + i.size, t⟩

/-- The states that come up are those to which some instructions lead. -/
theorem reaches_iff {state : State} :
    Reaches code capacity state ↔ ∃ done, Runs code capacity done state := by
  constructor
  · intro h
    induction h with
    | refl => exact ⟨[], .start⟩
    | tail _ hturn ih =>
      obtain ⟨done, hdone⟩ := ih
      obtain ⟨hi, hs⟩ := hturn
      exact ⟨_, .turn hdone hi hs⟩
  · rintro ⟨done, h⟩
    induction h with
    | start => exact .refl
    | turn _ hi hs ih => exact .tail ih (.run hi hs)

/-- What a stack holds once the instructions have been run on it. -/
structure Accounts (capacity : Int) (done : List Instruction) (s : Stack Int) : Prop where
  capacity_eq : s.capacity = capacity
  fits : ∀ n ∈ s.items, Word.Fits n
  size_le : s.size ≤ max capacity 0
  size_eq : (s.size : Int) =
    done.countP Instruction.isPush - done.countP Instruction.isOperation

theorem accounts_turn {done : List Instruction} {offset : Nat} {i : Instruction} {s t : Stack Int}
    (h : Accounts capacity done s) (hi : fetch code offset = some (.ok i))
    (hs : step s i = .ok t) : Accounts capacity (done ++ [i]) t := by
  have hfits : ∀ n ∈ t.items, Word.Fits n :=
    fits_of_turn (a := ⟨offset, s⟩) (b := ⟨_, t⟩) (.run hi hs) h.fits
  rw [step_eq, h.capacity_eq] at hs
  obtain ⟨items, hnext, hbounded⟩ := Outcome.bind_eq_ok_iff.mp hs
  obtain ⟨hle, rfl⟩ := bounded_eq_ok_iff.mp hbounded
  refine ⟨rfl, hfits, hle, ?_⟩
  have hlength := Unbounded.length_step hnext
  have hsize := h.size_eq
  rw [List.countP_append, List.countP_append, List.countP_singleton, List.countP_singleton]
  simp only [Stack.size] at hsize ⊢
  omega

theorem accounts_of_runs {done : List Instruction} {state : State}
    (h : Runs code capacity done state) : Accounts capacity done state.stack := by
  induction h with
  | start => exact ⟨rfl, List.forall_mem_nil _, Int.le_max_right capacity 0, rfl⟩
  | turn _ hi hs ih => exact accounts_turn ih hi hs

namespace Accounts

variable {done : List Instruction} {s : Stack Int}

theorem step_operation_ne_overflow (h : Accounts capacity done s) (op : Operation) :
    step s (.operation op) ≠ .error (.stack .overflow) := by
  intro hover
  rw [step_eq] at hover
  rcases Outcome.bind_eq_error_iff.mp hover with hstep | ⟨items, hstep, hbounded⟩
  · exact Unbounded.step_ne_overflow _ _ hstep
  · have hlength := Unbounded.length_step hstep
    have hle := h.size_le
    have hroom : items.length ≤ max s.capacity 0 := by
      rw [h.capacity_eq]
      simp only [Stack.size] at hle
      simp only [Instruction.isPush, Instruction.isOperation, if_true, Bool.false_eq_true,
        if_false] at hlength
      omega
    rw [bounded_of_le hroom] at hbounded
    cases hbounded

variable {a b : Int} {rest : List Int}

theorem step_operation_eq_map (h : Accounts capacity done s) (hitems : s.items = a :: b :: rest)
    (op : Operation) :
    step s (.operation op) =
      ((op.apply a b).mapError .operation).map fun v => { s with items := v :: rest } := by
  have hle := h.size_le
  obtain ⟨capacity, items⟩ := s
  obtain rfl := h.capacity_eq
  subst hitems
  have room : (rest.length : Int) < capacity := by
    simp only [Stack.size, List.length_cons] at hle
    omega
  rw [step_operation room, Expr.combine_eq_apply]

theorem fits_operands (h : Accounts capacity done s) (hitems : s.items = a :: b :: rest) :
    Word.Fits a ∧ Word.Fits b := by
  have hfits := h.fits
  simp only [hitems, List.forall_mem_cons] at hfits
  exact ⟨hfits.1, hfits.2.1⟩

theorem step_sub_eq (h : Accounts capacity done s) (hitems : s.items = a :: b :: rest) :
    step s (.operation .sub) =
      if a < b then .error (.operation (.outOfRange .sub a b))
      else .ok { s with items := (a - b) :: rest } := by
  obtain ⟨ha, hb⟩ := h.fits_operands hitems
  rw [h.step_operation_eq_map hitems, Operation.apply_sub_of_fits ha hb]
  by_cases hlt : a < b
  · simp only [if_pos hlt, Outcome.mapError_error, Outcome.map_error]
  · simp only [if_neg hlt, Outcome.mapError_ok, Outcome.map_ok]

theorem step_div_eq (h : Accounts capacity done s) (hitems : s.items = a :: b :: rest) :
    step s (.operation .div) =
      if b = 0 then .error (.operation .divisionByZero)
      else .ok { s with items := a.tdiv b :: rest } := by
  obtain ⟨ha, hb⟩ := h.fits_operands hitems
  rw [h.step_operation_eq_map hitems, Operation.apply_div_of_fits ha hb]
  by_cases hzero : b = 0
  · simp only [if_pos hzero, Outcome.mapError_error, Outcome.map_error]
  · simp only [if_neg hzero, Outcome.mapError_ok, Outcome.map_ok]

theorem step_ne_outOfRange_div (h : Accounts capacity done s) (i : Instruction) (x y : Int) :
    step s i ≠ .error (.operation (.outOfRange .div x y)) := by
  intro hstep
  rcases step_error_cases hstep with ⟨_, hf⟩ | ⟨op, a, b, rest, g, _, hitems, happly, hf⟩
  · cases hf
  · cases hf
    obtain rfl := Operation.eq_of_apply_eq_outOfRange happly
    obtain ⟨ha, hb⟩ := h.fits_operands hitems
    rw [Operation.apply_div_of_fits ha hb] at happly
    split at happly
    · cases happly
    · cases happly

end Accounts

/-! ## Whole runs -/

theorem exists_runs_ends (code : List UInt8) (capacity : Int) :
    ∃ done state, Runs code capacity done state ∧ Ends code state (execute capacity code) := by
  obtain ⟨state, hreaches, hends⟩ := exists_ends_execute code capacity
  obtain ⟨done, hruns⟩ := reaches_iff.mp hreaches
  exact ⟨done, state, hruns, hends⟩

theorem eq_underflow_of_top {s : Stack Int} {f : Fault}
    (h : s.top.mapError Fault.stack = .error f) : f = .stack .underflow := by
  obtain ⟨capacity, items⟩ := s
  cases items with
  | nil =>
    cases h
    rfl
  | cons v rest => cases h

/-- A fault that is neither the decoder's nor that of an empty stack is met by an
instruction. -/
theorem exists_step_of_execute {f : Fault} (h : execute capacity code = .error f)
    (hdecoding : ∀ g, f ≠ .decoding g) (hunderflow : f ≠ .stack .underflow) :
    ∃ done offset s i, Runs code capacity done ⟨offset, s⟩ ∧ fetch code offset = some (.ok i) ∧
      step s i = .error f := by
  obtain ⟨done, state, hruns, hends⟩ := exists_runs_ends code capacity
  rw [h] at hends
  rcases ends_cases hends with ⟨_, htop⟩ | ⟨_, _, hfault⟩ | ⟨i, g, hi, hg, hfault⟩
  · exact absurd (eq_underflow_of_top htop.symm) hunderflow
  · cases hfault
    exact absurd rfl (hdecoding _)
  · cases hfault
    exact ⟨done, state.offset, state.stack, i, hruns, hi, hg⟩

theorem exists_push_of_overflow (h : execute capacity code = .error (.stack .overflow)) :
    ∃ done offset s n, Runs code capacity done ⟨offset, s⟩ ∧
      fetch code offset = some (.ok (.push n)) ∧ step s (.push n) = .error (.stack .overflow) := by
  obtain ⟨done, offset, s, i, hruns, hi, hf⟩ :=
    exists_step_of_execute h (fun _ => by simp) (by simp)
  cases i with
  | push n => exact ⟨done, offset, s, n, hruns, hi, hf⟩
  | operation op => exact absurd hf ((accounts_of_runs hruns).step_operation_ne_overflow op)

theorem execute_ne_outOfRange_div (x y : Int) :
    execute capacity code ≠ .error (.operation (.outOfRange .div x y)) := by
  intro h
  obtain ⟨_, _, _, i, hruns, _, hf⟩ := exists_step_of_execute h (fun _ => by simp) (by simp)
  exact (accounts_of_runs hruns).step_ne_outOfRange_div i x y hf

/-- The values are words and their number is that of the pushes less that of the
operations, so only a push overflows, quotients are words and so are differences
that are not negative. -/
theorem accounts_along_run (code : List UInt8) (capacity : Int) :
    (∃ done state, Runs code capacity done state ∧ Ends code state (execute capacity code)) ∧
    (∀ done state, Runs code capacity done state → Accounts capacity done state.stack ∧
      (∀ op, step state.stack (.operation op) ≠ .error (.stack .overflow)) ∧
      ∀ a b rest, state.stack.items = a :: b :: rest →
        step state.stack (.operation .div) =
          (if b = 0 then .error (.operation .divisionByZero)
          else .ok { state.stack with items := a.tdiv b :: rest }) ∧
        step state.stack (.operation .sub) =
          (if a < b then .error (.operation (.outOfRange .sub a b))
          else .ok { state.stack with items := (a - b) :: rest })) ∧
    (execute capacity code = .error (.stack .overflow) →
      ∃ done offset s n, Runs code capacity done ⟨offset, s⟩ ∧
        fetch code offset = some (.ok (.push n)) ∧
        step s (.push n) = .error (.stack .overflow)) ∧
    (∀ x y, execute capacity code ≠ .error (.operation (.outOfRange .div x y))) ∧
    ∀ n, execute capacity code = .ok n → Word.Fits n := by
  refine ⟨exists_runs_ends code capacity, fun done state hruns => ?_, exists_push_of_overflow,
    execute_ne_outOfRange_div, fun _ => fits_of_execute⟩
  have h := accounts_of_runs hruns
  exact ⟨h, h.step_operation_ne_overflow, fun a b rest hitems =>
    ⟨h.step_div_eq hitems, h.step_sub_eq hitems⟩⟩

/-- Two pushes leave two values, of which the smaller one is the first operand. -/
theorem accounts_along_run_two_pushes :
    let push (n : Nat) : List UInt8 := 0x7F :: Word.bigEndian 32 n
    let code := push 9 ++ push 4 ++ [0x04]
    let s : Stack Int := { capacity := 2, items := [4, 9] }
    (Runs code 2 [.push 9, .push 4] ⟨66, s⟩ ∧ s.size = 2 ∧ Word.Fits 4 ∧
      step s (.operation .div) = .ok { capacity := 2, items := [0] } ∧
      step s (.operation .sub) = .error (.operation (.outOfRange .sub 4 9))) ∧
    (execute 2 code = .ok 0 ∧ Word.Fits 0) ∧
    execute 1 code = .error (.stack .overflow) ∧
      ∃ done offset s n, Runs code 1 done ⟨offset, s⟩ ∧
        fetch code offset = some (.ok (.push n)) ∧
        step s (.push n) = .error (.stack .overflow) := by
  intro push code s
  have hfirst : Runs code 2 ([] ++ [.push 9]) ⟨33, { capacity := 2, items := [9] }⟩ :=
    .turn .start (by decide +kernel) rfl
  have hsecond : Runs code 2 ([.push 9] ++ [.push 4]) ⟨66, s⟩ :=
    .turn hfirst (by decide +kernel) rfl
  have hvalue : execute 2 code = .ok 0 := by decide +kernel
  have hover : execute 1 code = .error (.stack .overflow) := by decide +kernel
  obtain ⟨_, hstates, _, _, hwords⟩ := accounts_along_run code 2
  obtain ⟨haccounts, _, hresults⟩ := hstates _ _ hsecond
  obtain ⟨hdiv, hsub⟩ := hresults 4 9 [] rfl
  refine ⟨⟨hsecond, ?_, haccounts.fits 4 List.mem_cons_self, hdiv, hsub⟩,
    ⟨hvalue, hwords 0 hvalue⟩, hover, (accounts_along_run code 1).2.2.1 hover⟩
  exact Int.ofNat_inj.mp haccounts.size_eq

end Machine
end WordCalc
