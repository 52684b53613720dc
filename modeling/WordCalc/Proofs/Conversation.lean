import WordCalc.Session
import WordCalc.Proofs.Range
import WordCalc.Proofs.Stages

namespace WordCalc

namespace Machine

/-- A step told by opcode and operand.  Only a push that has its operand is
stored, and any other opcode is asked for its result on two values. -/
def dispatch (s : Stack Int) (o : Opcode) (operand : Option Int) :
    Except (Stack.Fault ⊕ Opcode.Fault) (Stack Int) :=
  match o, operand with
  | .push, some n => (s.push n).mapError .inl
  | o, _ => do
    let (a, s) ← s.pop.mapError .inl
    let (b, s) ← s.pop.mapError .inl
    let n ← (o.apply a b).mapError .inr
    (s.push n).mapError .inl

/-- The fault of a step, unless an opcode had no result. -/
def Fault.ofDispatch? : Stack.Fault ⊕ Opcode.Fault → Option Fault
  | .inl f => some (.stack f)
  | .inr (.operation f) => some (.operation f)
  | .inr (.notBinary _) => none

theorem dispatch_eq_step (s : Stack Int) (i : Instruction) :
    (dispatch s i.opcode i.operand).mapError Fault.ofDispatch? = (step s i).mapError some := by
  cases i with
  | push n =>
    show ((s.push n).mapError _).mapError _ = ((s.push n).mapError _).mapError _
    cases s.push n <;> rfl
  | operation op =>
    obtain ⟨capacity, items⟩ := s
    match items with
    | [] => rfl
    | [a] => rfl
    | a :: b :: rest =>
      have hdispatch : dispatch { capacity, items := a :: b :: rest } (.operation op) none =
          (((op.apply a b).mapError Opcode.Fault.operation).mapError .inr).bind fun v =>
            (Stack.push { capacity, items := rest } v).mapError .inl := rfl
      rw [Instruction.opcode, Instruction.operand, hdispatch, step_operation_eq]
      cases op.apply a b with
      | error f => rfl
      | ok v =>
        simp only [Outcome.mapError_ok, Outcome.bind_ok]
        cases Stack.push { capacity, items := rest } v <;> rfl

end Machine

namespace Calculation

/-- The faults that a source text can have. -/
inductive Fault.OfSource : Fault → Prop
  | character (c : Char) (source : Text) (index : Nat) :
    OfSource (.lexical ⟨.character c, source, index⟩)
  | literal (digits source : Text) (index : Nat) :
    OfSource (.lexical ⟨.literal digits, source, index⟩)
  | unclosed (index : Nat) (tokens : List Token) :
    OfSource (.grouping ⟨⟨.unclosed, index⟩, tokens⟩)
  | unopened (index : Nat) (tokens : List Token) :
    OfSource (.grouping ⟨⟨.unopened, index⟩, tokens⟩)
  | overflow : OfSource (.execution (.stack .overflow))
  | underflow : OfSource (.execution (.stack .underflow))
  | divisionByZero : OfSource (.execution (.operation .divisionByZero))
  | outOfRange (op : Operation) (a b : Int) :
    OfSource (.execution (.operation (.outOfRange op a b)))

namespace Fault.OfSource

theorem lexical (f : Lexer.Fault) : OfSource (.lexical f) := by
  obtain ⟨cause, source, index⟩ := f
  cases cause with
  | character c => exact .character c source index
  | literal digits => exact .literal digits source index

theorem grouping (f : Polish.Fault) : OfSource (.grouping f) := by
  obtain ⟨⟨cause, index⟩, tokens⟩ := f
  cases cause with
  | unclosed => exact .unclosed index tokens
  | unopened => exact .unopened index tokens

theorem execution {f : Machine.Fault} (h : ∀ g, f ≠ .decoding g) : OfSource (.execution f) := by
  cases f with
  | decoding g => exact absurd rfl (h g)
  | stack g =>
    cases g with
    | overflow => exact .overflow
    | underflow => exact .underflow
  | operation g =>
    cases g with
    | divisionByZero => exact .divisionByZero
    | outOfRange op a b => exact .outOfRange op a b

theorem isUser {f : Fault} (h : f.OfSource) : f.isUser = true := by
  cases h <;> rfl

end Fault.OfSource

/-- A calculation gives a word or a fault of its source. -/
theorem calculate_cases (capacity : Int) (source : Text) :
    (∃ n, calculate capacity source = .ok n ∧ Word.Fits n) ∨
    ∃ f, calculate capacity source = .error f ∧ f.OfSource := by
  cases hlex : Lexer.tokens source with
  | error f => exact .inr ⟨_, calculate_of_lexical hlex capacity, .lexical f⟩
  | ok tokens =>
    cases hp : Polish.ofTokens tokens with
    | error f => exact .inr ⟨_, calculate_of_grouping hlex hp capacity, .grouping f⟩
    | ok p =>
      obtain ⟨_, code, hdecode, hcalculate⟩ := exists_calculate hlex hp
      rw [hcalculate]
      cases h : Machine.execute capacity code with
      | ok n => exact .inl ⟨n, rfl, Machine.fits_of_execute h⟩
      | error f =>
        have hnone : (Program.decode code).fault = none := by rw [hdecode]
        exact .inr ⟨_, rfl, .execution (Machine.ne_decoding_of_execute hnone h)⟩

/-- The fault of a source text can be told: it shows no number but words. -/
theorem told_of_calculate {capacity : Int} {source : Text} {f : Fault}
    (h : calculate capacity source = .error f) :
    f.told Decimal.standardLimit = .ok f.message := by
  cases hlex : Lexer.tokens source with
  | error g =>
    cases (calculate_of_lexical hlex capacity).symm.trans h
    rfl
  | ok tokens =>
    cases hp : Polish.ofTokens tokens with
    | error g =>
      cases (calculate_of_grouping hlex hp capacity).symm.trans h
      have hwritable : Token.Writable Decimal.standardLimit g.tokens := by
        rw [Polish.tokens_of_ofTokens hp]
        exact writable_of_tokens hlex
      exact Polish.tell_of_writable hwritable g.summary g.index
    | ok p =>
      obtain ⟨_, code, _, hcalculate⟩ := exists_calculate hlex hp
      obtain ⟨g, _, rfl⟩ := Outcome.mapError_eq_error_iff.mp ((hcalculate capacity).symm.trans h)
      rfl

theorem exists_answer (source : Text) : ∃ a, answer source = .ok a := by
  unfold answer
  rcases calculate_cases Machine.defaultCapacity source with ⟨n, hn, _⟩ | ⟨f, hf, hsource⟩
  · exact ⟨.value n, by rw [hn]⟩
  · refine ⟨.complaint f.message, ?_⟩
    simp only [hf, hsource.isUser, if_true, told_of_calculate hf, Outcome.map_ok,
      Outcome.mapError_ok]

end Calculation

namespace Session

/-- Whether the line is the last one of its session. -/
def isLast (line : Text) : Bool := Text.strip Text.isBlank line == "exit".toList

theorem exists_respond (line : Text) :
    ∃ output, respond line = .ok ⟨output, line == "exit".toList⟩ := by
  unfold respond
  by_cases h : line = "exit".toList
  · exact ⟨_, by rw [if_pos h, beq_iff_eq.mpr h]⟩
  · obtain ⟨a, ha⟩ := Calculation.exists_answer line
    rw [if_neg h, beq_eq_false_iff_ne.mpr h, ha]
    cases a with
    | value n => exact ⟨_, rfl⟩
    | complaint message => exact ⟨_, rfl⟩

theorem exists_answerLine (line : Text) :
    ∃ output, answerLine line = .ok ⟨output, isLast line⟩ := by
  unfold answerLine isLast
  cases Text.strip Text.isBlank line with
  | nil => exact ⟨[], rfl⟩
  | cons c rest => exact exists_respond (c :: rest)

/-- What is said after the last prompt. -/
def farewell (lines : List Text) : Text :=
  if lines.any isLast then "Exiting ...\n".toList else []

theorem answerLine_of_isLast {line : Text} (h : isLast line = true) :
    answerLine line = .ok ⟨"Exiting ...\n".toList, true⟩ := by
  have hstrip : Text.strip Text.isBlank line = "exit".toList := beq_iff_eq.mp h
  rw [answerLine, hstrip]
  rfl

/-- Lines that do not end the session are answered one by one, and the
conversation goes on. -/
theorem converse_append {first : List Text} (h : ∀ line ∈ first, isLast line = false) :
    ∃ answers, List.Forall₂ (fun line output => answerLine line = .ok ⟨output, false⟩)
        first answers ∧
      ∀ second, converse (first ++ second) =
        (converse second).map (answers.flatMap (prompt ++ ·) ++ ·) := by
  induction first with
  | nil =>
    refine ⟨[], .nil, fun second => ?_⟩
    show converse second = (converse second).map id
    cases converse second <;> rfl
  | cons line rest ih =>
    obtain ⟨hline, hrest⟩ := List.forall_mem_cons.mp h
    obtain ⟨answers, hanswers, hconverse⟩ := ih hrest
    obtain ⟨output, houtput⟩ := exists_answerLine line
    rw [hline] at houtput
    refine ⟨output :: answers, .cons houtput hanswers, fun second => ?_⟩
    rw [List.cons_append, converse, houtput, hconverse, List.flatMap_cons]
    cases converse second with
    | error f => rfl
    | ok said =>
      show Except.ok (prompt ++ output ++ (_ ++ said)) = Except.ok _
      simp only [List.append_assoc]

theorem converse_of_isLast {line : Text} (h : isLast line = true) (rest : List Text) :
    converse (line :: rest) = .ok (prompt ++ "Exiting ...\n".toList) := by
  rw [converse, answerLine_of_isLast h]
  rfl

/-- The lines before the last one, and nothing or the last one with what is not
read any more. -/
theorem takeWhile_isLast (lines : List Text) :
    (∀ line ∈ lines.takeWhile fun line => !isLast line, isLast line = false) ∧
    ((lines.dropWhile (fun line => !isLast line) = [] ∧ lines.any isLast = false) ∨
      ∃ last rest, lines.dropWhile (fun line => !isLast line) = last :: rest ∧
        isLast last = true ∧ lines.any isLast = true) := by
  induction lines with
  | nil => simp
  | cons line rest ih =>
    by_cases h : isLast line = true
    · simp [h]
    · simpa [h] using ih

/-- A conversation is the answers to the lines before the last one. -/
theorem converse_eq (lines : List Text) :
    ∃ answers, List.Forall₂ (fun line output => answerLine line = .ok ⟨output, false⟩)
        (lines.takeWhile fun line => !isLast line) answers ∧
      converse lines = .ok (answers.flatMap (prompt ++ ·) ++ prompt ++ farewell lines) := by
  obtain ⟨hbefore, hafter⟩ := takeWhile_isLast lines
  obtain ⟨answers, hanswers, hconverse⟩ := converse_append hbefore
  have hall := hconverse (lines.dropWhile fun line => !isLast line)
  rw [List.takeWhile_append_dropWhile] at hall
  refine ⟨answers, hanswers, ?_⟩
  rcases hafter with ⟨hnil, hnone⟩ | ⟨last, rest, hcons, hlast, hsome⟩
  · rw [hall, hnil, farewell, hnone]
    simp [converse]
  · rw [hall, hcons, converse_of_isLast hlast, farewell, hsome]
    simp

/-- No fault but those of source texts ever shows, and no line ends a session
but `exit`. -/
theorem faults_are_of_source :
    (∀ capacity source, (∃ n, Calculation.calculate capacity source = .ok n ∧ Word.Fits n) ∨
      ∃ f, Calculation.calculate capacity source = .error f ∧ f.OfSource) ∧
    (∀ s i, (Machine.dispatch s i.opcode i.operand).mapError Machine.Fault.ofDispatch? =
      (Machine.step s i).mapError some) ∧
    (∀ line, ∃ output, respond line = .ok ⟨output, line == "exit".toList⟩) ∧
    ∀ input, ∃ answers,
      List.Forall₂ (fun line output => answerLine line = .ok ⟨output, false⟩)
        ((lines input).takeWhile fun line => !isLast line) answers ∧
      transcript input =
        .ok (greeting ++ (answers.flatMap (prompt ++ ·) ++ prompt ++ farewell (lines input))) := by
  refine ⟨Calculation.calculate_cases, Machine.dispatch_eq_step, exists_respond, fun input => ?_⟩
  obtain ⟨answers, hanswers, hconverse⟩ := converse_eq (lines input)
  exact ⟨answers, hanswers, by rw [transcript, hconverse]; rfl⟩

end Session
end WordCalc
