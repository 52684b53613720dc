import WordCalc.Calculation.Log
import WordCalc.Proofs.Counter
import WordCalc.Proofs.Stages

namespace WordCalc.Calculation

/-- The code of the source is run to its end and leaves so many values. -/
def Leaves (capacity : Int) (source : Text) (k : Nat) : Prop :=
  ∃ trace s, compile source = .ok trace ∧ Machine.run capacity trace.code = .ok s ∧ s.size = k

/-- The records of a run that leaves `k` values with `n` on top. -/
def valueRecords (k : Nat) (n : Int) : List Record :=
  (if 1 < k then [.leftover k] else []) ++ [.evaluated n]

/-- The records of a calculation in which every stage succeeds. -/
def allRecords (tokens : List Token) (p : Polish) (code : List UInt8) (k : Nat) (n : Int) :
    List Record :=
  [.lexed tokens, .grouped p, .compiled code] ++ valueRecords k n

namespace Record

/-- A record, the name it is logged under and its text. -/
inductive Says : Record → Text → Text → Prop
  | lexed (tokens : List Token) : Says (.lexed tokens) "stackcalc.api".toList
      ("Lexer (str to tokens)> [".toList ++ ", ".toList.intercalate (tokens.map Token.inspect) ++
        [']'])
  | grouped (p : Polish) : Says (.grouped p) "stackcalc.api".toList
      ("Parser (tokens to prefix notation)> ".toList ++ Text.spaced (p.tokens.map Token.text))
  | compiled (code : List UInt8) : Says (.compiled code) "stackcalc.api".toList
      ("Compiler (prefix notation to bytecode)> ".toList ++ Hex.ofBytes code)
  | leftover (k : Nat) : Says (.leftover k) "stackcalc.runtime".toList
      (Decimal.ofNat k ++ " values left on the stack, returning the top one".toList)
  | evaluated (n : Int) : Says (.evaluated n) "stackcalc.api".toList
      ("Runtime (bytecode to value)> ".toList ++ Decimal.ofInt n)

theorem says_message (r : Record) : r.Says r.logger r.message := by
  cases r with
  | lexed tokens => exact .lexed tokens
  | grouped p => exact .grouped p
  | compiled code => exact .compiled code
  | leftover k => exact .leftover k
  | evaluated n => exact .evaluated n

/-- What a record tells is true of the calculation. -/
inductive Holds (capacity : Int) (source : Text) : Record → Prop
  | lexed {tokens : List Token} : Lexer.tokens source = .ok tokens →
    Holds capacity source (.lexed tokens)
  | grouped {trace : Trace} : compile source = .ok trace →
    Holds capacity source (.grouped trace.polish)
  | compiled {trace : Trace} : compile source = .ok trace →
    Holds capacity source (.compiled trace.code)
  | leftover {k : Nat} : Leaves capacity source k → 1 < k → Holds capacity source (.leftover k)
  | evaluated {n : Int} : calculate capacity source = .ok n →
    Holds capacity source (.evaluated n)

end Record

theorem length_allRecords (tokens : List Token) (p : Polish) (code : List UInt8) (k : Nat)
    (n : Int) : (allRecords tokens p code k n).length = if 1 < k then 5 else 4 := by
  unfold allRecords valueRecords
  by_cases h : 1 < k
  · rw [if_pos h, if_pos h]
    rfl
  · rw [if_neg h, if_neg h]
    rfl

variable {source : Text} {tokens : List Token} {capacity : Int}

/-! ## What is left -/

theorem stages_of_compile {trace : Trace} (h : compile source = .ok trace) :
    Lexer.tokens source = .ok trace.tokens ∧ Polish.ofTokens trace.tokens = .ok trace.polish ∧
      Program.ofPolish trace.polish = .ok trace.code := by
  obtain ⟨tokens, hlex, h⟩ := Outcome.bind_eq_ok_iff.mp h
  obtain ⟨p, hp, h⟩ := Outcome.bind_eq_ok_iff.mp h
  obtain ⟨code, hcode, h⟩ := Outcome.bind_eq_ok_iff.mp h
  cases h
  exact ⟨Outcome.mapError_eq_ok_iff.mp hlex,
    Polish.parse_eq_ok_iff.mp (Outcome.mapError_eq_ok_iff.mp hp),
    Outcome.mapError_eq_ok_iff.mp hcode⟩

/-- The values that a run leaves are the trees of the Polish notation, of which
each has one number more than it has operators. -/
theorem Leaves.surplus_eq {k : Nat} (h : Leaves capacity source k) :
    ∃ tokens, Lexer.tokens source = .ok tokens ∧ Token.surplus tokens = k := by
  obtain ⟨trace, s, hcompile, hrun, rfl⟩ := h
  obtain ⟨hlex, hp, hcode⟩ := stages_of_compile hcompile
  have hpolish := isPolish_of_ofTokens hlex hp
  obtain ⟨code, hcode', hdecode⟩ := Program.exists_ofPolish hpolish
  obtain rfl : code = trace.code := Except.ok.inj (hcode'.symm.trans hcode)
  rw [Machine.run_of_decode hdecode] at hrun
  obtain ⟨trees, hspells, hlength⟩ := Machine.exists_spellsAll hpolish hrun
  refine ⟨trace.tokens, hlex, ?_⟩
  calc Token.surplus trace.tokens
      = Token.surplus (trace.tokens.filter Token.survives) :=
        (Token.surplus_filter (fun _ ht => ht) trace.tokens).symm
    _ = Token.surplus trace.polish.tokens := (Token.surplus_perm (Polish.ofTokens_perm hp)).symm
    _ = s.size := by rw [hspells.surplus_eq, hlength]

theorem leaves_iff {trace : Trace} (hcompile : compile source = .ok trace) {k : Nat} :
    Leaves capacity source k ↔ ∃ s, Machine.run capacity trace.code = .ok s ∧ s.size = k := by
  constructor
  · rintro ⟨_, s, htrace, hrun⟩
    cases hcompile.symm.trans htrace
    exact ⟨s, hrun⟩
  · rintro ⟨s, hrun⟩
    exact ⟨_, s, hcompile, hrun⟩

/-! ## The log -/

theorem holds_of_compile {trace : Trace} (h : compile source = .ok trace) :
    ∀ r ∈ [.lexed trace.tokens, .grouped trace.polish, .compiled trace.code],
      Record.Holds capacity source r := by
  simp only [List.forall_mem_cons]
  exact ⟨.lexed (stages_of_compile h).1, .grouped h, .compiled h, List.forall_mem_nil _⟩

/-- The records of a run, by the outcome of the run. -/
theorem executionLog_cases (capacity : Int) (code : List UInt8) :
    (∃ f, Machine.execute capacity code = .error f ∧ executionLog capacity code = [] ∧
      ∀ s, Machine.run capacity code = .ok s → s.size = 0) ∨
    ∃ s n, Machine.run capacity code = .ok s ∧ Machine.execute capacity code = .ok n ∧
      0 < s.size ∧ executionLog capacity code = valueRecords s.size n := by
  have hexecute : Machine.execute capacity code =
      (Machine.run capacity code).bind fun s => s.top.mapError .stack := rfl
  rw [hexecute, executionLog]
  cases Machine.run capacity code with
  | error f => exact .inl ⟨f, rfl, rfl, fun s hs => by cases hs⟩
  | ok s =>
    obtain ⟨bound, items⟩ := s
    cases items with
    | nil =>
      refine .inl ⟨_, rfl, rfl, fun s hs => ?_⟩
      cases hs
      rfl
    | cons v rest => exact .inr ⟨_, v, rfl, rfl, Nat.succ_pos _, rfl⟩

/-- How a calculation ends, what it leaves and what it logs. -/
theorem log_cases (capacity : Int) (source : Text) :
    (∃ f, calculate capacity source = .error (.lexical f) ∧ log capacity source = [] ∧
      ∀ k, ¬ Leaves capacity source k) ∨
    (∃ f tokens, Lexer.tokens source = .ok tokens ∧
      calculate capacity source = .error (.grouping f) ∧
      log capacity source = [.lexed tokens] ∧ ∀ k, ¬ Leaves capacity source k) ∨
    (∃ f trace, compile source = .ok trace ∧ calculate capacity source = .error (.execution f) ∧
      (∀ g, f ≠ .decoding g) ∧
      log capacity source = [.lexed trace.tokens, .grouped trace.polish, .compiled trace.code] ∧
      ∀ k, Leaves capacity source k → k = 0) ∨
    ∃ n trace k, compile source = .ok trace ∧ calculate capacity source = .ok n ∧ 0 < k ∧
      log capacity source = allRecords trace.tokens trace.polish trace.code k n ∧
      ∀ j, Leaves capacity source j ↔ j = k := by
  cases hlex : Lexer.tokens source with
  | error f =>
    refine .inl ⟨f, calculate_of_lexical hlex capacity, by rw [log, hlex], ?_⟩
    rintro k ⟨trace, _, hcompile, _⟩
    cases hlex.symm.trans (stages_of_compile hcompile).1
  | ok tokens =>
    cases hp : Polish.ofTokens tokens with
    | error f =>
      refine .inr (.inl ⟨f, tokens, rfl, calculate_of_grouping hlex hp capacity, ?_, ?_⟩)
      · simp only [log, hlex, parse_of_tokens hlex, hp, Outcome.mapError_error]
      · rintro k ⟨trace, _, hcompile, _⟩
        obtain ⟨hlex', hp', _⟩ := stages_of_compile hcompile
        cases hlex.symm.trans hlex'
        cases hp.symm.trans hp'
    | ok p =>
      obtain ⟨code, hcode, hdecode⟩ := Program.exists_ofPolish (isPolish_of_ofTokens hlex hp)
      have hcompile := compile_of_stages hlex hp hcode
      have hcalculate : calculate capacity source =
          (Machine.execute capacity code).mapError .execution :=
        calculate_of_compile hcompile capacity
      have hlog : log capacity source =
          [.lexed tokens, .grouped p, .compiled code] ++ executionLog capacity code := by
        simp only [log, hlex, Polish.parse_eq_ok_iff.mpr hp, hcode]
        rfl
      rcases executionLog_cases capacity code with
        ⟨f, hf, hrecords, hempty⟩ | ⟨s, n, hrun, hn, hpos, hrecords⟩
      · have hnone : (Program.decode code).fault = none := by rw [hdecode]
        refine .inr (.inr (.inl ⟨f, _, hcompile, by rw [hcalculate, hf]; rfl,
          Machine.ne_decoding_of_execute hnone hf, ?_, ?_⟩))
        · rw [hlog, hrecords, List.append_nil]
        · intro k hk
          obtain ⟨s, hs, rfl⟩ := (leaves_iff hcompile).mp hk
          exact hempty s hs
      · refine .inr (.inr (.inr ⟨n, _, s.size, hcompile, by rw [hcalculate, hn]; rfl, hpos,
          by rw [hlog, hrecords]; rfl, fun j => ?_⟩))
        rw [leaves_iff hcompile, hrun]
        simp only [Except.ok.injEq, exists_eq_left', eq_comm]

theorem log_of_calculate {n : Int} (h : calculate capacity source = .ok n) :
    ∃ trace k, compile source = .ok trace ∧ Leaves capacity source k ∧
      log capacity source = allRecords trace.tokens trace.polish trace.code k n := by
  rcases log_cases capacity source with ⟨_, hf, _⟩ | ⟨_, _, _, hf, _⟩ | ⟨_, _, _, hf, _⟩ |
    ⟨m, trace, k, hcompile, hm, _, hlog, hleaves⟩
  · cases hf.symm.trans h
  · cases hf.symm.trans h
  · cases hf.symm.trans h
  · cases hm.symm.trans h
    exact ⟨trace, k, hcompile, (hleaves k).mpr rfl, hlog⟩

theorem log_isPrefix_of_calculate {f : Fault} (h : calculate capacity source = .error f) :
    ∃ tokens p code, log capacity source <+: [.lexed tokens, .grouped p, .compiled code] := by
  rcases log_cases capacity source with ⟨_, _, hlog, _⟩ | ⟨_, tokens, _, _, hlog, _⟩ |
    ⟨_, trace, _, _, _, hlog, _⟩ | ⟨n, _, _, _, hn, _⟩
  · exact ⟨[], ⟨[]⟩, [], hlog ▸ List.nil_prefix⟩
  · exact ⟨tokens, ⟨[]⟩, [], hlog ▸ ⟨_, rfl⟩⟩
  · exact ⟨trace.tokens, trace.polish, trace.code, hlog ▸ List.prefix_rfl⟩
  · cases hn.symm.trans h

theorem holds_of_mem_allRecords {trace : Trace} {k : Nat} {n : Int}
    (hcompile : compile source = .ok trace) (hleaves : Leaves capacity source k)
    (hn : calculate capacity source = .ok n) :
    ∀ r ∈ allRecords trace.tokens trace.polish trace.code k n, r.Holds capacity source := by
  unfold allRecords valueRecords
  intro r hr
  rcases List.mem_append.mp hr with hr | hr
  · exact holds_of_compile hcompile r hr
  · rcases List.mem_append.mp hr with hr | hr
    · split at hr
      · next hk =>
        rw [List.mem_singleton.mp hr]
        exact .leftover hleaves hk
      · cases hr
    · rw [List.mem_singleton.mp hr]
      exact .evaluated hn

theorem holds_of_mem_log {r : Record} (h : r ∈ log capacity source) :
    r.Holds capacity source := by
  rcases log_cases capacity source with ⟨_, _, hlog, _⟩ | ⟨_, _, hlex, _, hlog, _⟩ |
    ⟨_, _, hcompile, _, _, hlog, _⟩ | ⟨_, _, k, hcompile, hn, _, hlog, hleaves⟩
  · rw [hlog] at h
    cases h
  · rw [hlog] at h
    rw [List.mem_singleton.mp h]
    exact .lexed hlex
  · exact holds_of_compile hcompile r (hlog ▸ h)
  · exact holds_of_mem_allRecords hcompile ((hleaves k).mpr rfl) hn r (hlog ▸ h)

theorem leftover_of_leaves {k : Nat} (h : Leaves capacity source k) (hk : 1 < k) :
    (log capacity source)[3]? = some (.leftover k) := by
  rcases log_cases capacity source with ⟨_, _, _, hleaves⟩ | ⟨_, _, _, _, _, hleaves⟩ |
    ⟨_, _, _, _, _, _, hleaves⟩ | ⟨_, _, j, _, _, _, hlog, hleaves⟩
  · exact absurd h (hleaves k)
  · exact absurd h (hleaves k)
  · have := hleaves k h
    omega
  · obtain rfl := (hleaves k).mp h
    rw [hlog, allRecords, valueRecords, if_pos hk]
    rfl

/-- The log of a calculation with a value is that of all its stages, and that of one
with a fault an initial part.  The number of records tells at which stage it ended,
and the fourth of five how many values are left, which is the surplus of numbers. -/
theorem log_tells_stage (capacity : Int) (source : Text) :
    (∀ n, calculate capacity source = .ok n → ∃ trace k, compile source = .ok trace ∧
      Leaves capacity source k ∧
      log capacity source = allRecords trace.tokens trace.polish trace.code k n) ∧
    (∀ f, calculate capacity source = .error f → ∃ tokens p code,
      log capacity source <+: [.lexed tokens, .grouped p, .compiled code]) ∧
    (∀ r ∈ log capacity source, r.Holds capacity source ∧ r.Says r.logger r.message) ∧
    (∀ k, Leaves capacity source k →
      (1 < k → (log capacity source)[3]? = some (.leftover k)) ∧
      ∃ tokens, Lexer.tokens source = .ok tokens ∧ Token.surplus tokens = k) ∧
    ((log capacity source).length = 0 ↔
      ∃ f, calculate capacity source = .error (.lexical f)) ∧
    ((log capacity source).length = 1 ↔
      ∃ f, calculate capacity source = .error (.grouping f)) ∧
    (log capacity source).length ≠ 2 ∧
    ((log capacity source).length = 3 ↔
      ∃ f, calculate capacity source = .error (.execution f) ∧ ∀ g, f ≠ .decoding g) ∧
    ((log capacity source).length = 4 ↔
      ∃ n, calculate capacity source = .ok n ∧ Leaves capacity source 1) ∧
    ((log capacity source).length = 5 ↔
      ∃ n k, calculate capacity source = .ok n ∧ Leaves capacity source k ∧ 1 < k) := by
  refine ⟨fun n => log_of_calculate, fun f => log_isPrefix_of_calculate,
    fun r hr => ⟨holds_of_mem_log hr, r.says_message⟩,
    fun k hk => ⟨leftover_of_leaves hk, hk.surplus_eq⟩, ?_⟩
  rcases log_cases capacity source with ⟨f, hcalculate, hlog, _⟩ |
    ⟨f, tokens, _, hcalculate, hlog, _⟩ | ⟨f, trace, _, hcalculate, hdecoding, hlog, _⟩ |
    ⟨n, trace, k, _, hcalculate, hpos, hlog, hleaves⟩
  · simp [hcalculate, hlog]
  · simp [hcalculate, hlog]
  · simp [hcalculate, hlog, hdecoding]
  · have hlength : (log capacity source).length = if 1 < k then 5 else 4 := by
      rw [hlog, length_allRecords]
    by_cases h : 1 < k
    · have hone : ¬ 1 = k := by omega
      simp [hcalculate, hlength, hleaves, h, hone]
    · have hone : 1 = k := by omega
      simp [hcalculate, hlength, hleaves, ← hone]

/-- Two numbers with nothing between them are both left, where there is room. -/
theorem log_tells_stage_two_values :
    let source := "2 3".toList
    Leaves 2 source 2 ∧ (log 2 source).length = 5 ∧
      (log 2 source)[3]? = some (.leftover 2) ∧
      Record.Says (.leftover 2) "stackcalc.runtime".toList
        "2 values left on the stack, returning the top one".toList ∧
      Token.surplus [.number 2, { kind := .blank }, .number 3] = 2 ∧
      (log 1 source).length = 3 ∧ ∃ f, calculate 1 source = .error (.execution f) := by
  intro source
  have hlex : Lexer.tokens source = .ok [.number 2, { kind := .blank }, .number 3] := by
    decide +kernel
  have hlength : (log 2 source).length = 5 := by decide +kernel
  have hlength' : (log 1 source).length = 3 := by decide +kernel
  obtain ⟨_, _, hrecords, hleft, _, _, _, _, _, hfive⟩ := log_tells_stage 2 source
  obtain ⟨_, _, _, _, _, _, _, hthree, _, _⟩ := log_tells_stage 1 source
  obtain ⟨n, k, _, hleaves, hk⟩ := hfive.mp hlength
  obtain ⟨hrecord, tokens, htokens, hsurplus⟩ := hleft k hleaves
  cases hlex.symm.trans htokens
  obtain rfl : k = 2 := Int.ofNat_inj.mp hsurplus.symm
  obtain ⟨f, hf, _⟩ := hthree.mp hlength'
  have hfourth := hrecord hk
  have htext : Record.message (.leftover 2) =
      "2 values left on the stack, returning the top one".toList := by decide +kernel
  have hsays := (hrecords _ (List.mem_of_getElem? hfourth)).2
  rw [htext] at hsays
  exact ⟨hleaves, hlength, hfourth, hsays, hsurplus, hlength', f, hf⟩

end WordCalc.Calculation
