import Mathlib.Data.List.Induction
import Mathlib.Tactic.Common
import WordCalc.Stack

/-!
# Calls on a stack

The calls on a stack with the replies to them settle the next reply.  Equal values
cannot be told apart, so each pushed value is marked with the position of its call,
which changes nothing else (`perform_map`).  `Holds` is the invariant of a run on
marked values.
-/

namespace WordCalc.Stack

variable {α β : Type}

/-- A call and the reply to it. -/
structure Event (α : Type) where
  call : Call α
  reply : Reply α

/-- The stack after the calls. -/
def after (s : Stack α) (calls : List (Call α)) : Stack α :=
  calls.foldl (fun s c => (s.perform c).2) s

/-- The calls and the replies to them. -/
def history (s : Stack α) : List (Call α) → List (Event α)
  | [] => []
  | c :: rest => ⟨c, (s.perform c).1⟩ :: history (s.perform c).2 rest

/-- Whether the call did more than fail or look. -/
def Event.isChange (e : Event α) : Bool :=
  match e.reply, e.call with
  | .fault _, _ => false
  | _, .top | _, .size => false
  | _, .push _ | _, .pop => true

/-! ## Marked values -/

def map (f : α → β) (s : Stack α) : Stack β where
  capacity := s.capacity
  items := s.items.map f

def Call.map (f : α → β) : Call α → Call β
  | .push v => .push (f v)
  | .pop => .pop
  | .top => .top
  | .size => .size

def Reply.map (f : α → β) : Reply α → Reply β
  | .done => .done
  | .value v => .value (f v)
  | .count n => .count n
  | .fault f => .fault f

def Event.map (f : α → β) (e : Event α) : Event β := ⟨e.call.map f, e.reply.map f⟩

/-- The calls with each pushed value marked by the position of its call. -/
def marked (calls : List (Call α)) : List (Call (Nat × α)) :=
  calls.mapIdx fun i c => c.map fun v => (i, v)

/-- Some push has stored the value and no pop has given it back. -/
def Remains (past : List (Event α)) (v : α) : Prop :=
  ⟨.push v, .done⟩ ∈ past ∧ ⟨.pop, .value v⟩ ∉ past

/-- Of the values that remain, the one that was pushed last. -/
def IsLatest (past : List (Event (Nat × α))) (v : Nat × α) : Prop :=
  Remains past v ∧ ∀ w, Remains past w → w.1 ≤ v.1

/-- The reply that a call gets from a stack of size `n`, given the history of the
calls before it on marked values. -/
def Answers (capacity : Int) (n : Nat) (past : List (Event (Nat × α))) (r : Reply α) :
    Call α → Prop
  | .push _ => r = if capacity ≤ n then .fault .overflow else .done
  | .pop | .top =>
    (n = 0 ∧ r = .fault .underflow) ∨ (n ≠ 0 ∧ ∃ i v, IsLatest past (i, v) ∧ r = .value v)
  | .size => r = .count n

/-! ## One call -/

theorem perform_push (s : Stack α) (v : α) :
    s.perform (.push v) = if s.capacity ≤ s.size then (.fault .overflow, s)
      else (.done, { s with items := v :: s.items }) := by
  rw [perform, push]
  by_cases h : s.capacity ≤ s.size
  · rw [if_pos h, if_pos h]
  · rw [if_neg h, if_neg h]

/-- All that a call can do. -/
theorem perform_cases (s : Stack α) (c : Call α) :
    (∃ v, c = .push v ∧ s.size < s.capacity ∧
      s.perform c = (.done, { s with items := v :: s.items })) ∨
    (∃ v rest, c = .pop ∧ s.items = v :: rest ∧
      s.perform c = (.value v, { s with items := rest })) ∨
    (Event.isChange ⟨c, (s.perform c).1⟩ = false ∧ (s.perform c).2 = s) := by
  obtain ⟨capacity, items⟩ := s
  cases c with
  | push v =>
    rw [perform_push]
    by_cases h : capacity ≤ size { capacity, items }
    · rw [if_pos h]
      exact .inr (.inr ⟨rfl, rfl⟩)
    · rw [if_neg h]
      exact .inl ⟨v, rfl, Int.not_le.mp h, rfl⟩
  | pop =>
    cases items with
    | nil => exact .inr (.inr ⟨rfl, rfl⟩)
    | cons v rest => exact .inr (.inl ⟨v, rest, rfl, rfl, rfl⟩)
  | top =>
    cases items with
    | nil => exact .inr (.inr ⟨rfl, rfl⟩)
    | cons v rest => exact .inr (.inr ⟨rfl, rfl⟩)
  | size => exact .inr (.inr ⟨rfl, rfl⟩)

/-- A call that fails or only looks leaves the stack as it was. -/
theorem perform_of_isChange_eq_false {s : Stack α} {c : Call α}
    (h : Event.isChange ⟨c, (s.perform c).1⟩ = false) : (s.perform c).2 = s := by
  rcases perform_cases s c with ⟨v, rfl, _, hc⟩ | ⟨v, rest, rfl, _, hc⟩ | ⟨_, hc⟩
  · rw [hc] at h
    cases h
  · rw [hc] at h
    cases h
  · exact hc

/-- A stack does not look at its values. -/
theorem perform_map (f : α → β) (s : Stack α) (c : Call α) :
    (s.map f).perform (c.map f) = ((s.perform c).1.map f, (s.perform c).2.map f) := by
  obtain ⟨capacity, items⟩ := s
  have hsize : size { capacity, items := items.map f } = size { capacity, items } :=
    List.length_map f
  cases c with
  | push v =>
    rw [Call.map, map, perform_push, perform_push, hsize]
    by_cases h : capacity ≤ size { capacity, items }
    · rw [if_pos h, if_pos h]
      rfl
    · rw [if_neg h, if_neg h]
      rfl
  | pop => cases items <;> rfl
  | top => cases items <;> rfl
  | size =>
    rw [Call.map, map, perform, hsize]
    rfl

/-! ## Runs -/

theorem after_append (s : Stack α) (a b : List (Call α)) :
    s.after (a ++ b) = (s.after a).after b := List.foldl_append

theorem history_append (s : Stack α) (a b : List (Call α)) :
    s.history (a ++ b) = s.history a ++ (s.after a).history b := by
  induction a generalizing s with
  | nil => rfl
  | cons c rest ih =>
    rw [List.cons_append, history, ih]
    rfl

theorem after_map (f : α → β) (s : Stack α) (calls : List (Call α)) :
    (s.map f).after (calls.map (Call.map f)) = (s.after calls).map f := by
  induction calls generalizing s with
  | nil => rfl
  | cons c rest ih =>
    show after ((s.map f).perform (c.map f)).2 _ = _
    rw [perform_map, ih]
    rfl

theorem history_map (f : α → β) (s : Stack α) (calls : List (Call α)) :
    (s.map f).history (calls.map (Call.map f)) = (s.history calls).map (Event.map f) := by
  induction calls generalizing s with
  | nil => rfl
  | cons c rest ih =>
    rw [List.map_cons, history, perform_map, ih]
    rfl

/-- Without their marks the calls are as they were. -/
theorem map_marked (calls : List (Call α)) : (marked calls).map (Call.map Prod.snd) = calls := by
  have hmark (i : Nat) (c : Call α) : (c.map fun v => (i, v)).map Prod.snd = c := by
    cases c <;> rfl
  apply List.ext_getElem
  · simp [marked]
  · intro i _ _
    simp [marked, hmark]

theorem marked_append_singleton (calls : List (Call α)) (c : Call α) :
    marked (calls ++ [c]) = marked calls ++ [c.map fun v => (calls.length, v)] := by
  simp [marked, List.mapIdx_append]

theorem capacity_perform (s : Stack α) (c : Call α) : (s.perform c).2.capacity = s.capacity := by
  rcases perform_cases s c with ⟨v, _, _, h⟩ | ⟨v, rest, _, _, h⟩ | ⟨_, h⟩ <;> rw [h]

theorem capacity_after (s : Stack α) (calls : List (Call α)) :
    (s.after calls).capacity = s.capacity := by
  induction calls generalizing s with
  | nil => rfl
  | cons c rest ih => exact (ih _).trans (capacity_perform s c)

/-- A call can fill a stack up to its capacity and no further. -/
theorem size_perform_le {s : Stack α} (h : (s.size : Int) ≤ max s.capacity 0) (c : Call α) :
    ((s.perform c).2.size : Int) ≤ max s.capacity 0 := by
  rcases perform_cases s c with ⟨v, _, hlt, hc⟩ | ⟨v, rest, _, hitems, hc⟩ | ⟨_, hc⟩
  · rw [hc]
    simp only [size, List.length_cons] at hlt ⊢
    omega
  · rw [hc]
    simp only [size, hitems, List.length_cons] at h ⊢
    omega
  · rwa [hc]

theorem size_after_le {s : Stack α} (h : (s.size : Int) ≤ max s.capacity 0)
    (calls : List (Call α)) : ((s.after calls).size : Int) ≤ max s.capacity 0 := by
  induction calls generalizing s with
  | nil => exact h
  | cons c rest ih =>
    have hstep := size_perform_le h c
    rw [← capacity_perform s c] at hstep ⊢
    exact ih hstep

/-! ## The calls that change something -/

/-- The calls that neither failed nor only looked. -/
def changes (past : List (Event α)) : List (Call α) :=
  (past.filter Event.isChange).map Event.call

/-- Without the other calls a run is the same, reply by reply. -/
theorem run_changes (s : Stack α) (calls : List (Call α)) :
    s.after (changes (s.history calls)) = s.after calls ∧
    s.history (changes (s.history calls)) = (s.history calls).filter Event.isChange := by
  induction calls generalizing s with
  | nil => exact ⟨rfl, rfl⟩
  | cons c rest ih =>
    obtain ⟨hafter, hhistory⟩ := ih (s.perform c).2
    by_cases h : Event.isChange ⟨c, (s.perform c).1⟩ = true
    · rw [changes, history, List.filter_cons_of_pos h, List.map_cons]
      refine ⟨hafter, ?_⟩
      rw [history]
      exact congrArg _ hhistory
    · have hsame : (s.perform c).2 = s :=
        perform_of_isChange_eq_false (Bool.eq_false_iff.mpr h)
      rw [hsame] at hafter hhistory
      rw [changes, history, List.filter_cons_of_neg h, hsame]
      refine ⟨hafter.trans ?_, hhistory⟩
      show _ = after (s.perform c).2 rest
      rw [hsame]

/-! ## What is still there -/

section Remains

variable {past : List (Event α)} {v w : α}

theorem remains_push (hnew : ⟨.pop, .value v⟩ ∉ past) :
    Remains (past ++ [⟨.push v, .done⟩]) w ↔ w = v ∨ Remains past w := by
  simp only [Remains, List.mem_append, List.mem_singleton, Event.mk.injEq, Call.push.injEq,
    reduceCtorEq, and_true, and_false, or_false]
  constructor
  · rintro ⟨hpush | hlast, hpop⟩
    · exact .inr ⟨hpush, hpop⟩
    · exact .inl hlast
  · rintro (rfl | ⟨hpush, hpop⟩)
    · exact ⟨.inr rfl, hnew⟩
    · exact ⟨.inl hpush, hpop⟩

theorem remains_pop : Remains (past ++ [⟨.pop, .value v⟩]) w ↔ Remains past w ∧ w ≠ v := by
  simp only [Remains, List.mem_append, List.mem_singleton, Event.mk.injEq, Reply.value.injEq,
    reduceCtorEq, true_and, false_and, or_false, not_or, and_assoc]

theorem remains_of_isChange_eq_false {e : Event α} (he : e.isChange = false) :
    Remains (past ++ [e]) w ↔ Remains past w := by
  have hpush : (⟨.push w, .done⟩ : Event α) ≠ e := fun heq => by
    rw [← heq] at he
    cases he
  have hpop : (⟨.pop, .value w⟩ : Event α) ≠ e := fun heq => by
    rw [← heq] at he
    cases he
  simp only [Remains, List.mem_append, List.mem_singleton, hpush, hpop, or_false]

end Remains

/-- The stack has the values that remain after the first `n` calls, the later
ones above the earlier ones. -/
structure Holds (past : List (Event (Nat × α))) (n : Nat) (items : List (Nat × α)) : Prop where
  mem_iff : ∀ v, v ∈ items ↔ Remains past v
  descending : items.Pairwise fun upper lower => lower.1 < upper.1
  mark_lt : ∀ v, ⟨.push v, .done⟩ ∈ past ∨ ⟨.pop, .value v⟩ ∈ past → v.1 < n

theorem holds_empty : Holds ([] : List (Event (Nat × α))) 0 [] where
  mem_iff _ := iff_of_false List.not_mem_nil fun hv => List.not_mem_nil hv.1
  descending := .nil
  mark_lt _ hv := hv.elim (absurd · List.not_mem_nil) (absurd · List.not_mem_nil)

namespace Holds

variable {past : List (Event (Nat × α))} {n : Nat} {items : List (Nat × α)} {v : Nat × α}

theorem push (hs : Holds past n items) (hv : v.1 = n) :
    Holds (past ++ [⟨.push v, .done⟩]) (n + 1) (v :: items) where
  mem_iff w := by
    have hnew : ⟨.pop, .value v⟩ ∉ past := fun hpop => by
      have := hs.mark_lt v (.inr hpop)
      omega
    rw [remains_push hnew, List.mem_cons, hs.mem_iff]
  descending := by
    refine List.pairwise_cons.mpr ⟨fun w hw => ?_, hs.descending⟩
    rw [hv]
    exact hs.mark_lt w (.inl ((hs.mem_iff w).mp hw).1)
  mark_lt w hw := by
    simp only [List.mem_append, List.mem_singleton, Event.mk.injEq, Call.push.injEq,
      reduceCtorEq, and_true, and_false, or_false] at hw
    rcases hw with (hpush | rfl) | hpop
    · exact Nat.lt_succ_of_lt (hs.mark_lt w (.inl hpush))
    · exact Nat.lt_succ_of_le (Nat.le_of_eq hv)
    · exact Nat.lt_succ_of_lt (hs.mark_lt w (.inr hpop))

theorem pop (hs : Holds past n (v :: items)) :
    Holds (past ++ [⟨.pop, .value v⟩]) (n + 1) items where
  mem_iff w := by
    have hbelow := (List.pairwise_cons.mp hs.descending).1
    rw [remains_pop, ← hs.mem_iff, List.mem_cons]
    constructor
    · intro hw
      refine ⟨.inr hw, ?_⟩
      rintro rfl
      exact Nat.lt_irrefl _ (hbelow w hw)
    · rintro ⟨rfl | hw, hne⟩
      · exact absurd rfl hne
      · exact hw
  descending := (List.pairwise_cons.mp hs.descending).2
  mark_lt w hw := by
    simp only [List.mem_append, List.mem_singleton, Event.mk.injEq, Reply.value.injEq,
      reduceCtorEq, true_and, false_and, or_false] at hw
    rcases hw with hpush | hpop | rfl
    · exact Nat.lt_succ_of_lt (hs.mark_lt w (.inl hpush))
    · exact Nat.lt_succ_of_lt (hs.mark_lt w (.inr hpop))
    · exact Nat.lt_succ_of_lt (hs.mark_lt w (.inl ((hs.mem_iff w).mp List.mem_cons_self).1))

theorem look (hs : Holds past n items) {e : Event (Nat × α)} (he : e.isChange = false) :
    Holds (past ++ [e]) (n + 1) items where
  mem_iff w := by rw [remains_of_isChange_eq_false he, hs.mem_iff]
  descending := hs.descending
  mark_lt w hw := by
    simp only [List.mem_append, List.mem_singleton] at hw
    rcases hw with (hpush | rfl) | (hpop | rfl)
    · exact Nat.lt_succ_of_lt (hs.mark_lt w (.inl hpush))
    · cases he
    · exact Nat.lt_succ_of_lt (hs.mark_lt w (.inr hpop))
    · cases he

theorem perform {s : Stack (Nat × α)} (hs : Holds past n s.items) {c : Call (Nat × α)}
    (hc : ∀ v, c = .push v → v.1 = n) :
    Holds (past ++ [⟨c, (s.perform c).1⟩]) (n + 1) (s.perform c).2.items := by
  rcases perform_cases s c with ⟨v, rfl, _, hr⟩ | ⟨v, rest, rfl, hitems, hr⟩ | ⟨he, hr⟩
  · rw [hr]
    exact hs.push (hc v rfl)
  · rw [hr]
    rw [hitems] at hs
    exact hs.pop
  · rw [hr]
    exact hs.look he

end Holds

/-- A run on marked values. -/
theorem holds_marked (capacity : Int) (calls : List (Call α)) :
    Holds ((empty capacity).history (marked calls)) calls.length
      ((empty capacity).after (marked calls)).items := by
  induction calls using List.reverseRecOn with
  | nil => exact holds_empty
  | append_singleton calls c ih =>
    rw [marked_append_singleton, history_append, after_append, List.length_append]
    refine ih.perform fun v hv => ?_
    cases c with
    | push w =>
      cases hv
      rfl
    | _ => cases hv

/-- The value on top is the latest of those that remain. -/
theorem Holds.isLatest {past : List (Event (Nat × α))} {n : Nat} {v : Nat × α}
    {rest : List (Nat × α)} (hs : Holds past n (v :: rest)) : IsLatest past v := by
  refine ⟨(hs.mem_iff v).mp List.mem_cons_self, fun w hw => ?_⟩
  rcases List.mem_cons.mp ((hs.mem_iff w).mpr hw) with rfl | hrest
  · exact Nat.le_refl _
  · exact Nat.le_of_lt ((List.pairwise_cons.mp hs.descending).1 w hrest)

theorem Holds.answers {past : List (Event (Nat × α))} {n : Nat} {s : Stack (Nat × α)}
    (hs : Holds past n s.items) (c : Call α) :
    Answers s.capacity s.size past ((s.map Prod.snd).perform c).1 c := by
  obtain ⟨capacity, items⟩ := s
  have hsize : (Stack.map Prod.snd { capacity, items }).size = size { capacity, items } :=
    List.length_map Prod.snd
  cases c with
  | push v =>
    show _ = if capacity ≤ size { capacity, items } then Reply.fault .overflow else .done
    rw [perform_push, hsize, map]
    split <;> rfl
  | pop | top =>
    cases items with
    | nil => exact .inl ⟨rfl, rfl⟩
    | cons v rest => exact .inr ⟨Nat.succ_ne_zero _, v.1, v.2, hs.isLatest, rfl⟩
  | size =>
    show Reply.count _ = Reply.count _
    rw [hsize]

/-- The calls on a stack that begins empty.  It never has more values than its
capacity says, each call gets the reply that the calls before it settle, and
those that fail or only look might as well not have been made. -/
theorem replies_from_history (capacity : Int) (calls : List (Call α)) :
    let start : Stack α := .empty capacity
    let past := (empty capacity).history (marked calls)
    start.history calls = past.map (Event.map Prod.snd) ∧
    ((start.after calls).size : Int) ≤ max capacity 0 ∧
    (∀ c, Answers capacity (start.after calls).size past ((start.after calls).perform c).1 c) ∧
    (∀ c, Event.isChange ⟨c, ((start.after calls).perform c).1⟩ = false →
      ((start.after calls).perform c).2 = start.after calls) ∧
    start.after (changes (start.history calls)) = start.after calls ∧
    start.history (changes (start.history calls)) =
      (start.history calls).filter Event.isChange := by
  intro start past
  have hhistory := history_map Prod.snd (empty capacity : Stack (Nat × α)) (marked calls)
  have hafter := after_map Prod.snd (empty capacity : Stack (Nat × α)) (marked calls)
  rw [map_marked] at hhistory hafter
  have hbound : (start.size : Int) ≤ max capacity 0 := Int.le_max_right capacity 0
  refine ⟨hhistory, size_after_le hbound calls, fun c => ?_,
    fun c => perform_of_isChange_eq_false, run_changes start calls⟩
  have hanswers := (holds_marked capacity calls).answers c
  have hsize : (start.after calls).size = ((empty capacity).after (marked calls)).size := by
    show (start.after calls).items.length = _
    rw [show start.after calls = _ from hafter]
    exact List.length_map Prod.snd
  rw [capacity_after, ← hafter, ← hsize] at hanswers
  exact hanswers

/-- Of two equal values the later one has been popped, a third value did not fit,
and the one that is left is on top. -/
theorem replies_from_history_equal_values :
    let start : Stack Int := .empty 2
    let calls : List (Call Int) := [.push 7, .push 7, .push 9, .top, .pop]
    let s := start.after calls
    let past := (empty 2).history (marked calls)
    s.size = 1 ∧ (∃ i v, IsLatest past (i, v) ∧ (s.perform .pop).1 = .value v) ∧
      Event.isChange ⟨.top, (s.perform .top).1⟩ = false ∧ (s.perform .top).2 = s ∧
      start.after [.push 7, .push 7, .pop] = s := by
  intro start calls s past
  obtain ⟨_, _, hanswers, hsame, hafter, _⟩ := replies_from_history 2 calls
  refine ⟨rfl, ?_, rfl, hsame .top rfl, hafter⟩
  rcases hanswers .pop with ⟨hzero, _⟩ | ⟨_, hlatest⟩
  · cases hzero
  · exact hlatest

end WordCalc.Stack
