import WordCalc.Proofs.Decoding

/-!
# Evaluation

The program of a tree pushes the value of the tree or fails as the tree does.
Conversely a program that runs to its end was made from a list of trees, one for each
value on the stack: an operator finds two trees exactly if it finds two values.
-/

namespace WordCalc.Machine

theorem steps_singleton (s : Stack Int) (i : Instruction) : steps s [i] = step s i := by
  rw [steps, List.foldlM_cons]
  cases step s i <;> rfl

theorem steps_cons (s : Stack Int) (i : Instruction) (rest : List Instruction) :
    steps s (i :: rest) = (step s i).bind fun t => steps t rest := by
  rw [steps, List.foldlM_cons]
  rfl

theorem step_push (s : Stack Int) (n : Int) :
    step s (.push n) =
      ((Expr.number n).eval s.capacity s.size).map fun v => { s with items := v :: s.items } := by
  by_cases room : s.capacity ≤ s.size
  · simp only [step, Stack.push, Expr.eval, if_pos room, Outcome.mapError_error, Outcome.map_error]
  · simp only [step, Stack.push, Expr.eval, if_neg room, Outcome.mapError_ok, Outcome.map_ok]

theorem step_operation_eq (capacity : Int) (items : List Int) (op : Operation) (a b : Int) :
    step { capacity, items := a :: b :: items } (.operation op) =
      ((op.apply a b).mapError Fault.operation).bind fun v =>
        (Stack.push { capacity, items } v).mapError Fault.stack := rfl

/-- An operation above two values, when there was room for the one that it
leaves. -/
theorem step_operation {capacity : Int} {items : List Int} (room : (items.length : Int) < capacity)
    (op : Operation) (a b : Int) :
    step { capacity, items := a :: b :: items } (.operation op) =
      (Expr.combine op a b).map fun v => { capacity, items := v :: items } := by
  have hpush (v : Int) : Stack.push { capacity, items } v = .ok { capacity, items := v :: items } :=
    Stack.push_eq_ok_iff.mpr ⟨room, rfl⟩
  simp only [step_operation_eq, Expr.combine_eq_apply, hpush]
  cases op.apply a b <;> rfl

theorem steps_of_spells {tokens : List Token} {e : Expr} (h : Spells tokens e) (s : Stack Int) :
    steps s (Program.instructions tokens) =
      (e.eval s.capacity s.size).map fun v => { s with items := v :: s.items } := by
  induction h generalizing s with
  | number n => exact (steps_singleton s _).trans (step_push s n)
  | @binary t op a b l r ht _ _ ihl ihr =>
    have hi : Instruction.ofToken? t = some (.operation op) :=
      Program.ofToken?_of_operation? ht
    rw [Program.instructions_cons hi, Program.instructions_append, steps_append, steps_append,
      ihr, Expr.eval_binary]
    cases hr : r.eval s.capacity s.size with
    | error f => rfl
    | ok y =>
      have room : (s.size : Int) < s.capacity := Expr.lt_of_eval_eq_ok hr
      show ((steps { s with items := y :: s.items } (Program.instructions a)).bind _) = _
      rw [ihl]
      show ((l.eval s.capacity (s.size + 1)).map _).bind _ = _
      cases l.eval s.capacity (s.size + 1) with
      | error f => rfl
      | ok x =>
        show steps { s with items := x :: y :: s.items } [.operation op] = _
        rw [steps_singleton, step_operation room]
        rfl

/-- The program of trees in a row leaves the value of each, the first on top. -/
theorem steps_of_spellsAll {tokens : List Token} {trees : List Expr}
    (h : SpellsAll tokens trees) (capacity : Int) :
    steps (.empty capacity) (Program.instructions tokens) =
      (Expr.evalAll capacity trees).map fun values => { capacity, items := values } := by
  induction h with
  | nil => rfl
  | @cons a b e rest he _ ih =>
    rw [Program.instructions_append, steps_append, ih, Expr.evalAll_cons]
    cases hv : Expr.evalAll capacity rest with
    | error f => rfl
    | ok values =>
      show steps { capacity, items := values } (Program.instructions a) = _
      rw [steps_of_spells he]
      show (e.eval capacity values.length).map _ = ((e.eval capacity rest.length).map _).map _
      rw [Expr.length_of_evalAll_eq_ok hv]
      cases e.eval capacity rest.length <;> rfl

theorem exists_of_step_operation {s t : Stack Int} {op : Operation}
    (h : step s (.operation op) = .ok t) :
    ∃ a b v rest, s.items = a :: b :: rest ∧ op.apply a b = .ok v ∧
      t = { s with items := v :: rest } := by
  obtain ⟨capacity, items⟩ := s
  match items with
  | [] => cases h
  | [a] => cases h
  | a :: b :: rest =>
    rw [step_operation_eq] at h
    obtain ⟨v, happly, hv⟩ := Outcome.bind_eq_ok_iff.mp h
    have ht := (Stack.push_eq_ok_iff.mp (Outcome.mapError_eq_ok_iff.mp hv)).2
    exact ⟨a, b, v, rest, rfl, Outcome.mapError_eq_ok_iff.mp happly, ht⟩

/-- A step fails for the stack, or because an operation has no result. -/
theorem step_error_cases {s : Stack Int} {i : Instruction} {f : Fault} (h : step s i = .error f) :
    (∃ g, f = .stack g) ∨ ∃ op a b rest g, i = .operation op ∧ s.items = a :: b :: rest ∧
      op.apply a b = .error g ∧ f = .operation g := by
  cases i with
  | push n =>
    obtain ⟨g, _, rfl⟩ := Outcome.mapError_eq_error_iff.mp h
    exact .inl ⟨g, rfl⟩
  | operation op =>
    obtain ⟨capacity, items⟩ := s
    match items with
    | [] =>
      cases h
      exact .inl ⟨.underflow, rfl⟩
    | [a] =>
      cases h
      exact .inl ⟨.underflow, rfl⟩
    | a :: b :: rest =>
      rw [step_operation_eq] at h
      rcases Outcome.bind_eq_error_iff.mp h with h | ⟨v, _, h⟩
      · obtain ⟨g, happly, rfl⟩ := Outcome.mapError_eq_error_iff.mp h
        exact .inr ⟨op, a, b, rest, g, rfl, rfl, happly, rfl⟩
      · obtain ⟨g, _, rfl⟩ := Outcome.mapError_eq_error_iff.mp h
        exact .inl ⟨g, rfl⟩

/-- Tokens whose program runs to its end are trees in a row, one for each value
that is left. -/
theorem exists_spellsAll {tokens : List Token} (hp : ∀ t ∈ tokens, t.IsPolish) {capacity : Int}
    {s : Stack Int} (h : steps (.empty capacity) (Program.instructions tokens) = .ok s) :
    ∃ trees, SpellsAll tokens trees ∧ trees.length = s.size := by
  induction tokens generalizing s with
  | nil =>
    cases h
    exact ⟨[], .nil, rfl⟩
  | cons t rest ih =>
    have hrest : ∀ u ∈ rest, u.IsPolish := fun u hu => hp u (List.mem_cons_of_mem t hu)
    rcases hp t List.mem_cons_self with ht | ⟨n, rfl, _⟩
    · obtain ⟨op, hop⟩ := Option.isSome_iff_exists.mp ht
      rw [Program.instructions_cons (Program.ofToken?_of_operation? hop), steps_append] at h
      obtain ⟨before, hb, hstep⟩ := Outcome.bind_eq_ok_iff.mp h
      rw [steps_singleton] at hstep
      obtain ⟨trees, hall, hlen⟩ := ih hrest hb
      obtain ⟨a, b, v, tail, hbefore, _, hs⟩ := exists_of_step_operation hstep
      have hsize : before.size = tail.length + 2 := by rw [Stack.size, hbefore]; rfl
      match trees, hall, hlen with
      | l :: r :: more, hall, hlen =>
        refine ⟨.binary op l r :: more, hall.join hop, ?_⟩
        rw [Stack.size, hs]
        simp only [List.length_cons] at hlen ⊢
        omega
      | [_], _, hlen => simp only [List.length_cons, List.length_nil] at hlen; omega
      | [], _, hlen => simp only [List.length_nil] at hlen; omega
    · rw [Program.instructions_cons (i := .push n) rfl, steps_append] at h
      obtain ⟨before, hb, hstep⟩ := Outcome.bind_eq_ok_iff.mp h
      rw [steps_singleton] at hstep
      obtain ⟨trees, hall, hlen⟩ := ih hrest hb
      have hs := (Stack.push_eq_ok_iff.mp (Outcome.mapError_eq_ok_iff.mp hstep)).2
      refine ⟨.number n :: trees, .cons (.number n) hall, ?_⟩
      rw [hs, List.length_cons, hlen]
      rfl

/-! ## Whole programs -/

section Decoded

variable {code : List UInt8} {instructions : List Instruction}
  (h : Program.decode code = { instructions := Program.place 0 instructions, fault := none })

include h

theorem run_of_decode (capacity : Int) :
    run capacity code = steps (.empty capacity) instructions := by
  unfold run
  simp only [h, Program.map_instruction_place]
  cases steps (.empty capacity) instructions <;> rfl

theorem execute_of_decode (capacity : Int) :
    execute capacity code =
      (steps (.empty capacity) instructions).bind fun s => s.top.mapError .stack := by
  show (run capacity code).bind _ = _
  rw [run_of_decode h]

end Decoded

section Polish

variable {tokens : List Token} {code : List UInt8}
  (hdecode : Program.decode code =
    { instructions := Program.place 0 (Program.instructions tokens), fault := none })

include hdecode

theorem execute_of_spellsAll {e : Expr} {rest : List Expr} (h : SpellsAll tokens (e :: rest))
    (capacity : Int) : execute capacity code = Expr.evalFirst capacity e rest := by
  rw [execute_of_decode hdecode, steps_of_spellsAll h, Expr.evalAll_cons]
  show _ = (Expr.evalAll capacity rest).bind fun _ => e.eval capacity rest.length
  cases Expr.evalAll capacity rest with
  | error f => rfl
  | ok values =>
    simp only [Outcome.bind_ok]
    cases e.eval capacity rest.length <;> rfl

theorem exists_spellsAll_of_execute (hp : ∀ t ∈ tokens, t.IsPolish) {capacity n : Int}
    (h : execute capacity code = .ok n) : ∃ e rest, SpellsAll tokens (e :: rest) := by
  rw [execute_of_decode hdecode] at h
  obtain ⟨s, hs, htop⟩ := Outcome.bind_eq_ok_iff.mp h
  obtain ⟨trees, hall, hlen⟩ := exists_spellsAll hp hs
  match trees, hall, hlen with
  | e :: rest, hall, _ => exact ⟨e, rest, hall⟩
  | [], _, hlen =>
    have hitems : s.items = [] := List.eq_nil_of_length_eq_zero hlen.symm
    rw [Stack.top, hitems] at htop
    cases htop

end Polish

/-- Trees in a row are computed from the last to the first and give the value of
the first; anything else gives no value. -/
theorem execute_ofPolish {p : Polish} (hp : ∀ t ∈ p.tokens, t.IsPolish) :
    ∃ code, Program.ofPolish p = .ok code ∧ ∀ capacity,
      (∀ e rest, SpellsAll p.tokens (e :: rest) →
        execute capacity code = Expr.evalFirst capacity e rest) ∧
      ((¬ ∃ e rest, SpellsAll p.tokens (e :: rest)) → ∀ n, execute capacity code ≠ .ok n) := by
  obtain ⟨code, hcode, hdecode⟩ := Program.exists_ofPolish hp
  refine ⟨code, hcode, fun capacity => ⟨?_, ?_⟩⟩
  · intro e rest h
    exact execute_of_spellsAll hdecode h capacity
  · intro hnone n hn
    exact hnone (exists_spellsAll_of_execute hdecode hp hn)

/-- In `- 5 2 7` the seven is computed first and stays below the difference. -/
theorem execute_ofPolish_two_trees :
    let p : Polish := ⟨[{ kind := .minus }, .number 5, .number 2, .number 7]⟩
    (∀ t ∈ p.tokens, t.IsPolish) ∧ ∃ code, Program.ofPolish p = .ok code ∧
      execute 3 code = .ok 3 ∧ execute 2 code = .error (.stack .overflow) := by
  intro p
  have hp : ∀ t ∈ p.tokens, t.IsPolish := by
    simp only [p, List.forall_mem_cons]
    exact ⟨.inl rfl, .inr ⟨5, rfl, by decide⟩, .inr ⟨2, rfl, by decide⟩, .inr ⟨7, rfl, by decide⟩,
      List.forall_mem_nil _⟩
  have hspells : SpellsAll p.tokens [.binary .sub (.number 5) (.number 2), .number 7] :=
    .cons (.binary rfl (.number 5) (.number 2)) (.single (.number 7))
  obtain ⟨code, hcode, hrun⟩ := execute_ofPolish hp
  refine ⟨hp, code, hcode, ?_, ?_⟩
  · rw [(hrun 3).1 _ _ hspells]
    rfl
  · rw [(hrun 2).1 _ _ hspells]
    rfl

end WordCalc.Machine
