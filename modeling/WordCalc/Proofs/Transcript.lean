import Mathlib.Data.List.Forall2
import WordCalc.Proofs.Conversation

/-!
# Transcripts

`Lined` says what the lines of an input are without reading it from the left, so
inputs are joined line by line where the first one is finished.
-/

namespace WordCalc

namespace Session

/-! ## Lines of an input -/

/-- What ends a line, with the text behind it.  A carriage return in front of a
line feed does not end a line by itself. -/
inductive LineEnd : Text → Text → Prop
  | feed (rest : Text) : LineEnd ['\n'] rest
  | both (rest : Text) : LineEnd ['\r', '\n'] rest
  | carriage {rest : Text} : rest.head? ≠ some '\n' → LineEnd ['\r'] rest

/-- No character of the text ends a line. -/
def IsUnbroken (t : Text) : Prop := ∀ c ∈ t, c ≠ '\r' ∧ c ≠ '\n'

/-- The input consists of the lines, each with its end.  The last one may do
without an end if it is not empty. -/
inductive Lined : Text → List Text → Prop
  | nil : Lined [] []
  | last {line : Text} : line ≠ [] → IsUnbroken line → Lined line [line]
  | cons {line ending rest : Text} {more : List Text} :
    IsUnbroken line → LineEnd ending rest → Lined rest more →
      Lined (line ++ (ending ++ rest)) (line :: more)

theorem lines_cons_of_ne {c : Char} (h : c ≠ '\r' ∧ c ≠ '\n') (rest : Text) :
    lines (c :: rest) = (c :: (lines rest).headD []) :: (lines rest).tail := by
  rw [lines]
  · cases lines rest <;> rfl
  · exact fun _ hc _ => h.1 hc
  · exact h.1
  · exact h.2

theorem lines_ending {ending rest : Text} (h : LineEnd ending rest) :
    lines (ending ++ rest) = [] :: lines rest := by
  cases h with
  | feed rest => simp [lines]
  | both rest => simp [lines]
  | carriage hrest =>
    show lines ('\r' :: rest) = [] :: lines rest
    rw [lines]
    intro more hmore
    exact hrest (by simp [hmore])

theorem lines_line {line ending rest : Text} (hline : IsUnbroken line)
    (hend : LineEnd ending rest) :
    lines (line ++ (ending ++ rest)) = line :: lines rest := by
  induction line with
  | nil => exact lines_ending hend
  | cons c line ih =>
    obtain ⟨hc, hline⟩ := List.forall_mem_cons.mp hline
    rw [List.cons_append, lines_cons_of_ne hc, ih hline]
    rfl

theorem lines_of_isUnbroken {line : Text} (hne : line ≠ []) (hline : IsUnbroken line) :
    lines line = [line] := by
  induction line with
  | nil => exact absurd rfl hne
  | cons c line ih =>
    obtain ⟨hc, hline⟩ := List.forall_mem_cons.mp hline
    rw [lines_cons_of_ne hc]
    by_cases hnil : line = []
    · simp [hnil, lines]
    · simp [ih hnil hline]

/-- A character in front goes to the first line. -/
theorem Lined.cons_of_ne {c : Char} {rest : Text} {ls : List Text}
    (hc : c ≠ '\r' ∧ c ≠ '\n') (h : Lined rest ls) :
    Lined (c :: rest) ((c :: ls.headD []) :: ls.tail) := by
  cases h with
  | nil => exact .last (List.cons_ne_nil c []) (List.forall_mem_singleton.mpr hc)
  | last _ hline => exact .last (List.cons_ne_nil c _) (List.forall_mem_cons.mpr ⟨hc, hline⟩)
  | @cons line ending rest more hline hend hrest =>
    show Lined (c :: line ++ (ending ++ rest)) ((c :: line) :: more)
    exact .cons (List.forall_mem_cons.mpr ⟨hc, hline⟩) hend hrest

theorem lined_lines (input : Text) : Lined input (lines input) := by
  fun_induction lines input with
  | case1 => exact .nil
  | case2 rest ih => exact .cons (List.forall_mem_nil _) (.both rest) ih
  | case3 rest hrest ih =>
    have hend : LineEnd ['\r'] rest := .carriage fun hhead => by
      cases rest with
      | nil => simp at hhead
      | cons c more => exact hrest more (by simpa using hhead)
    exact .cons (List.forall_mem_nil _) hend ih
  | case4 rest ih => exact .cons (List.forall_mem_nil _) (.feed rest) ih
  | case5 c rest _ hreturn hfeed hlines ih =>
    have := ih.cons_of_ne ⟨hreturn, hfeed⟩
    rwa [hlines] at this
  | case6 c rest _ hreturn hfeed line more hlines ih =>
    have := ih.cons_of_ne ⟨hreturn, hfeed⟩
    rwa [hlines] at this

theorem lines_eq_iff {input : Text} {ls : List Text} : lines input = ls ↔ Lined input ls := by
  constructor
  · intro h
    subst h
    exact lined_lines input
  · intro h
    induction h with
    | nil => rfl
    | last hne hline => exact lines_of_isUnbroken hne hline
    | cons hline hend _ ih => rw [lines_line hline hend, ih]

example : lines "1\r\n\n\r2".toList = ["1".toList, [], [], "2".toList] := rfl

/-! ## Inputs one after another -/

/-- What is put behind the input starts with a line of its own. -/
def IsFinished (input : Text) : Prop := input = [] ∨ input.getLast? = some '\n'

theorem IsFinished.of_append {a b : Text} (h : IsFinished (a ++ b)) : IsFinished b := by
  by_cases hb : b = []
  · exact .inl hb
  · rcases h with hnil | hlast
    · exact .inl (List.append_eq_nil_iff.mp hnil).2
    · rw [List.getLast?_append_of_ne_nil a hb] at hlast
      exact .inr hlast

theorem LineEnd.append {ending rest : Text} (h : LineEnd ending rest)
    (hfinished : IsFinished (ending ++ rest)) (b : Text) : LineEnd ending (rest ++ b) := by
  cases h with
  | feed rest => exact .feed (rest ++ b)
  | both rest => exact .both (rest ++ b)
  | carriage hrest =>
    cases rest with
    | nil => simp [IsFinished] at hfinished
    | cons c more => exact .carriage hrest

theorem lines_append {a : Text} (ha : IsFinished a) (b : Text) :
    lines (a ++ b) = lines a ++ lines b := by
  have h := lined_lines a
  generalize lines a = ls at h
  induction h with
  | nil => rfl
  | last hne hline =>
    rcases ha with hnil | hlast
    · exact absurd hnil hne
    · exact absurd rfl (hline '\n' (List.mem_of_getLast? hlast)).2
  | @cons line ending rest more hline hend _ ih =>
    have hbehind : IsFinished (ending ++ rest) := ha.of_append
    rw [List.append_assoc, List.append_assoc, lines_line hline (hend.append hbehind b),
      ih hbehind.of_append, List.cons_append]

/-! ## Lines that are read -/

/-- What is said to a line by itself. -/
inductive Says : Text → Text → Prop
  | nothing {line : Text} : Text.strip Text.isBlank line = [] → Says line []
  | response {line : Text} {reply : Reply} : Text.strip Text.isBlank line ≠ [] →
    respond (Text.strip Text.isBlank line) = .ok reply → Says line reply.output

theorem says_of_answerLine {line : Text} {reply : Reply} (h : answerLine line = .ok reply) :
    Says line reply.output := by
  unfold answerLine at h
  split at h
  · next hnil =>
    cases h
    exact .nothing hnil
  · next hne => exact .response hne h

/-- The lines up to the first one that ends the session, and that one. -/
def heard (ls : List Text) : List Text :=
  (ls.takeWhile fun line => !isLast line) ++ (ls.dropWhile fun line => !isLast line).take 1

/-- A conversation is a prompt and what is said for each line that is read, and
one more prompt if the lines are used up. -/
theorem exists_says (ls : List Text) : ∃ said, List.Forall₂ Says (heard ls) said ∧
    converse ls = .ok (said.flatMap (prompt ++ ·) ++ if ls.any isLast then [] else prompt) := by
  obtain ⟨answers, hanswers, hconverse⟩ := converse_eq ls
  have hsays : List.Forall₂ Says (ls.takeWhile fun line => !isLast line) answers :=
    hanswers.imp fun _ _ h => says_of_answerLine h
  rw [farewell] at hconverse
  rcases (takeWhile_isLast ls).2 with ⟨hnil, hnone⟩ | ⟨last, rest, hcons, hlast, hsome⟩
  · refine ⟨answers, ?_, ?_⟩
    · simpa [heard, hnil] using hsays
    · simp [hconverse, hnone]
  · refine ⟨answers ++ ["Exiting ...\n".toList], ?_, ?_⟩
    · rw [heard, hcons]
      exact List.rel_append hsays (.cons (says_of_answerLine (answerLine_of_isLast hlast)) .nil)
    · simp [hconverse, hsome]

/-- Nothing behind a line that ends the session is read. -/
theorem converse_eq_of_isLast {last : Text} (h : isLast last = true)
    (before after after' : List Text) :
    converse (before ++ last :: after) = converse (before ++ last :: after') := by
  induction before with
  | nil => rw [List.nil_append, List.nil_append, converse_of_isLast h, converse_of_isLast h]
  | cons line before ih => rw [List.cons_append, List.cons_append, converse, converse, ih]

theorem transcript_eq {input said : Text} (h : converse (lines input) = .ok said) :
    transcript input = .ok (greeting ++ said) := by
  rw [transcript, h]
  rfl

/-- A session goes line by line, each answered by itself, so the transcripts of two
inputs make up that of both, and what is behind the line that ends it is lost. -/
theorem transcript_line_by_line :
    (∀ input ls, lines input = ls ↔ Lined input ls) ∧
    (∀ a b, IsFinished a → (∀ line ∈ lines a, isLast line = false) →
      ∃ opening sequel, transcript a = .ok (opening ++ prompt) ∧
        transcript b = .ok (greeting ++ sequel) ∧ transcript (a ++ b) = .ok (opening ++ sequel)) ∧
    (∀ input, ∃ said, List.Forall₂ Says (heard (lines input)) said ∧
      transcript input = .ok (greeting ++
        (said.flatMap (prompt ++ ·) ++ if (lines input).any isLast then [] else prompt))) ∧
    ∀ input input' before last after after', lines input = before ++ last :: after →
      lines input' = before ++ last :: after' → isLast last = true →
        transcript input = transcript input' := by
  refine ⟨fun _ _ => lines_eq_iff, fun a b ha hlines => ?_, fun input => ?_, ?_⟩
  · obtain ⟨answers, _, hconverse⟩ := converse_append hlines
    obtain ⟨said, _, hsequel⟩ := exists_says (lines b)
    have hopening := hconverse []
    have hboth := hconverse (lines b)
    rw [List.append_nil] at hopening
    rw [← lines_append ha, hsequel] at hboth
    refine ⟨greeting ++ answers.flatMap (prompt ++ ·), _, ?_, transcript_eq hsequel, ?_⟩
    · rw [transcript_eq hopening, List.append_assoc]
    · rw [transcript_eq hboth, List.append_assoc]
  · obtain ⟨said, hsaid, hconverse⟩ := exists_says (lines input)
    exact ⟨said, hsaid, transcript_eq hconverse⟩
  · intro input input' before last after after' h h' hlast
    rw [transcript, transcript, h, h', converse_eq_of_isLast hlast before after after']

/-- A line with a fault and a blank one, in front of an input that goes on behind
the line that ends the session. -/
theorem transcript_line_by_line_exit :
    let a := "1/0\r\n \n".toList
    let b := "2*3\r\texit \n9".toList
    let longer := b ++ "7(\n".toList
    IsFinished a ∧ (∀ line ∈ lines a, isLast line = false) ∧
      (∃ opening sequel, transcript a = .ok (opening ++ prompt) ∧
        transcript b = .ok (greeting ++ sequel) ∧ transcript (a ++ b) = .ok (opening ++ sequel)) ∧
      lines b = ["2*3".toList] ++ "\texit ".toList :: ["9".toList] ∧
      lines longer = ["2*3".toList] ++ "\texit ".toList :: ["97(".toList] ∧
      isLast "\texit ".toList = true ∧ transcript b = transcript longer := by
  intro a b longer
  have ha : IsFinished a := .inr rfl
  have hall : (lines a).all (fun line => !isLast line) = true := by decide
  have hlines : ∀ line ∈ lines a, isLast line = false := fun line hline => by
    simpa using List.all_eq_true.mp hall line hline
  have hb : lines b = ["2*3".toList] ++ "\texit ".toList :: ["9".toList] := rfl
  have hlonger : lines longer = ["2*3".toList] ++ "\texit ".toList :: ["97(".toList] := rfl
  have hlast : isLast "\texit ".toList = true := by decide
  exact ⟨ha, hlines, transcript_line_by_line.2.1 a b ha hlines, hb, hlonger, hlast,
    transcript_line_by_line.2.2.2 b longer _ _ _ _ hb hlonger hlast⟩

end Session
end WordCalc
