import Mathlib.Logic.Relation
import WordCalc.Proofs.Evaluation
import WordCalc.Proofs.Fetching

/-!
# The program counter

A turn runs the instruction at an offset and goes on behind it.  `Machine.run`
decodes first and then runs; every decoded instruction that runs is a turn, and there
is only one place where turns can end, so the two agree.
-/

namespace WordCalc

namespace Program

theorem take_eq_take_of_le {code other : List UInt8} {m n : Nat} (hmn : m ≤ n)
    (h : other.take n = code.take n) : other.take m = code.take m := by
  have hm := congrArg (List.take m) h
  rwa [List.take_take, List.take_take, Nat.min_eq_left hmn] at hm

/-- What an instruction is depends on no bytes behind it. -/
theorem fetch_of_take_eq {code other : List UInt8} {offset : Nat} {i : Instruction}
    (hi : fetch code offset = some (.ok i))
    (h : other.take (offset + i.size) = code.take (offset + i.size)) :
    fetch other offset = some (.ok i) := by
  have hpos : offset < offset + i.size := by
    cases i <;> exact Nat.lt_add_of_pos_right (Nat.succ_pos _)
  have hbyte : other[offset]? = code[offset]? := by
    rw [← List.getElem?_take_of_lt hpos, h, List.getElem?_take_of_lt hpos]
  cases stands_of_fetch hi with
  | operation hb _ => rw [fetch, hbyte, hb, Option.map_some, Opcode.ofByte?_byte]
  | @push operand hb hsize hdrop =>
    have hoperand : (code.drop (offset + 1)).take Word.size = operand := by
      rw [← List.tail_drop, hdrop, List.tail_cons, ← hsize, List.take_left]
    have hsame : (other.drop (offset + 1)).take Word.size = operand := by
      rw [List.take_drop, Nat.add_assoc, show 1 + Word.size = (Instruction.push _).size from rfl, h,
        ← hoperand, List.take_drop]
      rfl
    rw [fetch, hbyte, hb, Option.map_some, Opcode.ofByte?_byte]
    simp only [hsame, hsize, Nat.lt_irrefl, if_false]

end Program

namespace Machine

open Program (fetch)

structure State where
  offset : Nat
  stack : Stack Int

inductive Turn (code : List UInt8) : State → State → Prop
  | run {offset : Nat} {i : Instruction} {s t : Stack Int} :
    fetch code offset = some (.ok i) → step s i = .ok t →
      Turn code ⟨offset, s⟩ ⟨offset + i.size, t⟩

/-- The state comes up when the code is run on an empty stack. -/
def Reaches (code : List UInt8) (capacity : Int) : State → Prop :=
  Relation.ReflTransGen (Turn code) ⟨0, .empty capacity⟩

/-- How a run ends in a state without a turn. -/
inductive Ends (code : List UInt8) : State → Except Fault Int → Prop
  | top {offset : Nat} {s : Stack Int} :
    fetch code offset = none → Ends code ⟨offset, s⟩ (s.top.mapError .stack)
  | decoding {offset : Nat} {s : Stack Int} {cause : Program.Cause} :
    fetch code offset = some (.error cause) →
      Ends code ⟨offset, s⟩ (.error (.decoding ⟨cause, offset⟩))
  | running {offset : Nat} {i : Instruction} {s : Stack Int} {f : Fault} :
    fetch code offset = some (.ok i) → step s i = .error f → Ends code ⟨offset, s⟩ (.error f)

variable {code : List UInt8} {capacity : Int}

/-! ## Turns and runs -/

/-- Decoded instructions are run in turns, up to their end or to a fault. -/
theorem turns_of_fetches {offset stop : Nat} {located : List Program.Located}
    (h : Program.Fetches code offset located stop) (s : Stack Int) :
    (∃ t, steps s (located.map Program.Located.instruction) = .ok t ∧
      Relation.ReflTransGen (Turn code) ⟨offset, s⟩ ⟨stop, t⟩) ∨
    (∃ f state, steps s (located.map Program.Located.instruction) = .error f ∧
      Relation.ReflTransGen (Turn code) ⟨offset, s⟩ state ∧ Ends code state (.error f)) := by
  induction h generalizing s with
  | nil offset => exact .inl ⟨s, rfl, .refl⟩
  | @cons offset stop i rest hi _ ih =>
    cases hs : step s i with
    | error f =>
      refine .inr ⟨f, _, ?_, .refl, .running hi hs⟩
      rw [List.map_cons, steps_cons, hs]
      rfl
    | ok t =>
      have hfirst : steps s ((⟨offset, i⟩ :: rest : List Program.Located).map
          Program.Located.instruction) = steps t (rest.map Program.Located.instruction) := by
        rw [List.map_cons, steps_cons, hs]
        rfl
      rw [hfirst]
      rcases ih t with ⟨u, hu, hturns⟩ | ⟨f, state, hf, hturns, hends⟩
      · exact .inl ⟨u, hu, .head (.run hi hs) hturns⟩
      · exact .inr ⟨f, state, hf, .head (.run hi hs) hturns, hends⟩

theorem exists_ends_execute (code : List UInt8) (capacity : Int) :
    ∃ state, Reaches code capacity state ∧ Ends code state (execute capacity code) := by
  obtain ⟨stop, hfetches, hstops⟩ := Program.fetches_decode code
  rcases turns_of_fetches hfetches (.empty capacity) with
    ⟨t, ht, hturns⟩ | ⟨f, state, hf, hturns, hends⟩
  -- All that was decoded has run, so the turns are where decoding stopped.
  · refine ⟨_, hturns, ?_⟩
    generalize hfault : (Program.decode code).fault = fault at hstops
    simp only [execute, run, ht, hfault]
    cases hstops with
    | clean hnone => exact .top hnone
    | fault herror => exact .decoding herror
  · refine ⟨state, hturns, ?_⟩
    simp only [execute, run, hf]
    exact hends

/-! ## There is only one end -/

theorem turn_unique : Relator.RightUnique (Turn code) := by
  rintro _ _ _ ⟨hi, hs⟩ ⟨hj, ht⟩
  rw [hi] at hj
  cases hj
  rw [hs] at ht
  cases ht
  rfl

theorem Ends.not_turn {state next : State} {outcome : Except Fault Int}
    (h : Ends code state outcome) : ¬ Turn code state next := by
  rintro ⟨hi, hs⟩
  cases h with
  | top hnone =>
    rw [hnone] at hi
    cases hi
  | decoding herror =>
    rw [herror] at hi
    cases hi
  | running hj hf =>
    rw [hj] at hi
    cases hi
    rw [hf] at hs
    cases hs

theorem ends_cases {state : State} {outcome : Except Fault Int} (h : Ends code state outcome) :
    (fetch code state.offset = none ∧ outcome = state.stack.top.mapError .stack) ∨
    (∃ cause, fetch code state.offset = some (.error cause) ∧
      outcome = .error (.decoding ⟨cause, state.offset⟩)) ∨
    (∃ i f, fetch code state.offset = some (.ok i) ∧ step state.stack i = .error f ∧
      outcome = .error f) := by
  cases h with
  | top hnone => exact .inl ⟨hnone, rfl⟩
  | decoding herror => exact .inr (.inl ⟨_, herror, rfl⟩)
  | running hi hf => exact .inr (.inr ⟨_, _, hi, hf, rfl⟩)

theorem Ends.unique {state : State} {first second : Except Fault Int}
    (ha : Ends code state first) (hb : Ends code state second) : first = second := by
  cases ha <;> rcases ends_cases hb with ⟨_, rfl⟩ | ⟨_, _, rfl⟩ | ⟨_, _, _, _, rfl⟩ <;> simp_all

theorem Reaches.eq_of_ends {a b : State} {first second : Except Fault Int}
    (ha : Reaches code capacity a) (hb : Reaches code capacity b) (hfirst : Ends code a first)
    (hsecond : Ends code b second) : a = b := by
  -- Both are on one path, and the earlier one has no turn to go on with.
  rcases Relation.ReflTransGen.total_of_right_unique turn_unique ha hb with h | h
  · rcases Relation.ReflTransGen.cases_head h with rfl | ⟨_, hturn, _⟩
    · rfl
    · exact absurd hturn hfirst.not_turn
  · rcases Relation.ReflTransGen.cases_head h with rfl | ⟨_, hturn, _⟩
    · rfl
    · exact absurd hturn hsecond.not_turn

/-- The outcome is the one in which the turns end. -/
theorem execute_eq_iff {outcome : Except Fault Int} : execute capacity code = outcome ↔
    ∃ state, Reaches code capacity state ∧ Ends code state outcome := by
  obtain ⟨last, hlast, hends⟩ := exists_ends_execute code capacity
  constructor
  · rintro rfl
    exact ⟨last, hlast, hends⟩
  · rintro ⟨state, hstate, houtcome⟩
    cases hlast.eq_of_ends hstate hends houtcome
    exact hends.unique houtcome

/-! ## The first fault -/

/-- What has been run does not depend on what comes behind it. -/
theorem Reaches.of_take_eq {other : List UInt8} {state : State}
    (h : Reaches code capacity state)
    (htake : other.take state.offset = code.take state.offset) :
    Reaches other capacity state := by
  induction h with
  | refl => exact .refl
  | tail _ hturn ih =>
    obtain ⟨hi, hs⟩ := hturn
    refine .tail (ih ?_) (.run (Program.fetch_of_take_eq hi htake) hs)
    exact Program.take_eq_take_of_le (Nat.le_add_right _ _) htake

theorem step_ne_decoding (s : Stack Int) (i : Instruction) (f : Program.Fault) :
    step s i ≠ .error (.decoding f) := by
  intro h
  rcases step_error_cases h with ⟨_, hf⟩ | ⟨_, _, _, _, _, _, _, _, hf⟩
  · cases hf
  · cases hf

theorem steps_ne_decoding (s : Stack Int) (instructions : List Instruction)
    (f : Program.Fault) : steps s instructions ≠ .error (.decoding f) := by
  induction instructions generalizing s with
  | nil =>
    intro h
    cases h
  | cons i rest ih =>
    intro h
    rw [steps_cons] at h
    rcases Outcome.bind_eq_error_iff.mp h with h | ⟨t, _, h⟩
    · exact step_ne_decoding s i f h
    · exact ih t h

theorem top_ne_decoding (s : Stack Int) (f : Program.Fault) :
    s.top.mapError Fault.stack ≠ .error (.decoding f) := by
  intro h
  obtain ⟨_, _, hf⟩ := Outcome.mapError_eq_error_iff.mp h
  cases hf

theorem Ends.fetch_of_decoding {state : State} {cause : Program.Cause} {offset : Nat}
    (h : Ends code state (.error (.decoding ⟨cause, offset⟩))) :
    offset = state.offset ∧ fetch code state.offset = some (.error cause) := by
  rcases ends_cases h with ⟨_, htop⟩ | ⟨_, herror, houtcome⟩ | ⟨i, _, _, hf, houtcome⟩
  · exact absurd htop.symm (top_ne_decoding _ _)
  · cases houtcome
    exact ⟨rfl, herror⟩
  · cases houtcome
    exact absurd hf (step_ne_decoding _ i _)

/-- A run reports a fault of the decoder only if there is one. -/
theorem fault_of_execute {f : Program.Fault}
    (h : execute capacity code = .error (.decoding f)) : (Program.decode code).fault = some f := by
  rcases Outcome.bind_eq_error_iff.mp h with h | ⟨s, _, h⟩
  · rcases Outcome.bind_eq_error_iff.mp h with h | ⟨s, _, h⟩
    · exact absurd h (steps_ne_decoding _ _ f)
    · split at h
      · next hfault =>
        cases h
        exact hfault
      · cases h
  · exact absurd h (top_ne_decoding s f)

theorem ne_decoding_of_execute {f : Fault} (hdecode : (Program.decode code).fault = none)
    (h : execute capacity code = .error f) (g : Program.Fault) : f ≠ .decoding g := by
  intro hf
  subst hf
  have hfault := fault_of_execute h
  rw [hdecode] at hfault
  cases hfault

/-- A run is the turns of the program counter. -/
theorem execute_by_turns (code : List UInt8) (capacity : Int) :
    (∀ outcome, execute capacity code = outcome ↔
      ∃ state, Reaches code capacity state ∧ Ends code state outcome) ∧
    (∀ cause offset, execute capacity code = .error (.decoding ⟨cause, offset⟩) ↔
      ∃ s, Reaches code capacity ⟨offset, s⟩ ∧ fetch code offset = some (.error cause)) ∧
    (∀ offset s i f, Reaches code capacity ⟨offset, s⟩ → fetch code offset = some (.ok i) →
      step s i = .error f → ∀ other : List UInt8,
        other.take (offset + i.size) = code.take (offset + i.size) →
          execute capacity other = .error f) ∧
    ∀ s, Reaches code capacity ⟨code.length, s⟩ → s.items = [] →
      execute capacity code = .error (.stack .underflow) := by
  refine ⟨fun _ => execute_eq_iff, fun cause offset => ?_, ?_, ?_⟩
  · rw [execute_eq_iff]
    constructor
    · rintro ⟨⟨o, s⟩, hreaches, hends⟩
      obtain ⟨rfl, herror⟩ := hends.fetch_of_decoding
      exact ⟨s, hreaches, herror⟩
    · rintro ⟨s, hreaches, herror⟩
      exact ⟨_, hreaches, .decoding herror⟩
  · intro offset s i f hreaches hi hf other htake
    have hbefore := Program.take_eq_take_of_le (Nat.le_add_right offset i.size) htake
    exact execute_eq_iff.mpr
      ⟨_, hreaches.of_take_eq hbefore, .running (Program.fetch_of_take_eq hi htake) hf⟩
  · intro s hreaches hempty
    have htop : s.top.mapError Fault.stack = .error (.stack .underflow) := by
      rw [Stack.top, hempty]
      rfl
    rw [← htop]
    exact execute_eq_iff.mpr ⟨_, hreaches, .top (Program.fetch_eq_none_iff.mpr (Nat.le_refl _))⟩

/-- A division by zero hides the unknown byte behind it, and code without bytes
has no value. -/
theorem execute_by_turns_division :
    let push (n : Nat) : List UInt8 := 0x7F :: Word.bigEndian 32 n
    let code := push 0 ++ push 1 ++ [0x04]
    let s : Stack Int := { capacity := 2, items := [1, 0] }
    (Reaches code 2 ⟨66, s⟩ ∧ fetch code 66 = some (.ok (.operation .div)) ∧
      step s (.operation .div) = .error (.operation .divisionByZero) ∧
      execute 2 (code ++ [0xFF]) = .error (.operation .divisionByZero)) ∧
    Reaches [] 2 ⟨0, .empty 2⟩ ∧ execute 2 [] = .error (.stack .underflow) := by
  intro push code s
  have hfirst : Turn code ⟨0, .empty 2⟩ ⟨33, { capacity := 2, items := [0] }⟩ :=
    .run (i := .push 0) (by decide +kernel) rfl
  have hsecond : Turn code ⟨33, { capacity := 2, items := [0] }⟩ ⟨66, s⟩ :=
    .run (i := .push 1) (by decide +kernel) rfl
  have hreaches : Reaches code 2 ⟨66, s⟩ := .tail (.single hfirst) hsecond
  have hfetch : fetch code 66 = some (.ok (.operation .div)) := by decide +kernel
  have hempty : Reaches [] 2 ⟨0, .empty 2⟩ := .refl
  refine ⟨⟨hreaches, hfetch, rfl, ?_⟩, hempty, ?_⟩
  · exact (execute_by_turns code 2).2.2.1 66 s _ _ hreaches hfetch rfl _ rfl
  · exact (execute_by_turns [] 2).2.2.2 _ hempty rfl

end Machine
end WordCalc
