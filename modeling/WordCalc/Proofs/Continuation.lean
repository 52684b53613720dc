import WordCalc.Proofs.Seams

/-!
# Continued texts

What has been cut stays cut with more text behind, and from there lexing goes on as
if nothing stood in front.  A refused literal may grow, but the start of a numeral is
worth no more than the whole, so it stays refused.
-/

namespace WordCalc

namespace Lexer

variable {source rest more : Text} {ts : List Token} {cause : Cause}

/-! ## Lexing on from a cut -/

/-- The same pieces in another text, `offset` further on: what is read of them
does not change, only where a fault is. -/
theorem readPieces_add (whole part : Text) (offset index : Nat) (ps : List Piece) :
    readPieces whole (offset + index) ps = (readPieces part index ps).mapError fun f =>
      { cause := f.cause, source := whole, index := offset + f.index } := by
  induction ps generalizing index with
  | nil => rfl
  | cons piece rest ih =>
    rw [readPieces, readPieces]
    cases token piece with
    | error cause => rfl
    | ok t =>
      simp only [Nat.add_assoc, ih]
      cases readPieces part (index + piece.text.length) rest <;> rfl

/-- Lexing goes on from a cut as if the rest were a text by itself. -/
theorem Cuts.tokens_eq (h : Cuts source ts rest) :
    tokens source = ((tokens rest).mapError fun f =>
      { cause := f.cause, source, index := source.length - rest.length + f.index }).map
        (ts ++ ·) := by
  obtain ⟨before, rfl, _, hread⟩ := h.exists_append
  have hlength : (before ++ rest).length - rest.length = before.length := by simp
  have hmoved := readPieces_add (before ++ rest) rest before.length 0 (pieces rest)
  rw [Nat.add_zero] at hmoved
  rw [tokens, hread, hlength, Nat.zero_add, hmoved]
  rfl

/-- Tokens of joined texts are joined, and a fault moves along with its text. -/
theorem tokens_append {a b : Text} {ts : List Token} (ha : tokens a = .ok ts)
    (hseam : ¬ RunsOn ts b) :
    (∀ us, tokens b = .ok us → tokens (a ++ b) = .ok (ts ++ us)) ∧
    ∀ f, tokens b = .error f →
      tokens (a ++ b) = .error { cause := f.cause, source := a ++ b, index := f.index + a.length } := by
  have hcuts : Cuts (a ++ b) ts b := (tokens_eq_ok_iff.mp ha).append fun _ => hseam
  have hlength : (a ++ b).length - b.length = a.length := by simp
  have htokens := hcuts.tokens_eq
  rw [hlength] at htokens
  constructor
  · intro us hb
    rw [htokens, hb]
    rfl
  · intro f hb
    rw [htokens, hb, Nat.add_comm f.index]
    rfl

/-- A number in front of a blank with another number behind it, and in front of a
text that is refused. -/
theorem tokens_append_blank :
    let a := "12*007".toList
    let ts : List Token := [.number 12, { kind := .star }, .number 7]
    tokens a = .ok ts ∧ ¬ RunsOn ts " 3".toList ∧ ¬ RunsOn ts "+1²".toList ∧
      tokens (a ++ " 3".toList) = .ok (ts ++ [{ kind := .blank }, .number 3]) ∧
      tokens (a ++ "+1²".toList) =
        .error { cause := .literal "1²".toList, source := "12*007+1²".toList, index := 7 } := by
  intro a ts
  have ha : tokens a = .ok ts := by decide +kernel
  have hblank : ¬ RunsOn ts " 3".toList := by decide
  have hsign : ¬ RunsOn ts "+1²".toList := by decide
  refine ⟨ha, hblank, hsign, ?_, ?_⟩
  · exact (tokens_append ha hblank).1 _ (by decide +kernel)
  · exact (tokens_append ha hsign).2
      { cause := .literal "1²".toList, source := "+1²".toList, index := 1 } (by decide +kernel)

/-! ## Faults that stay -/

/-- The second cause is the first one with perhaps more digits to it. -/
inductive Cause.Grows : Cause → Cause → Prop
  | character (c : Char) : Grows (.character c) (.character c)
  | literal (digits more : Text) : Grows (.literal digits) (.literal (digits ++ more))

theorem Refused.tokens_eq (h : Refused source cause) :
    tokens source = .error { cause, source, index := 0 } := by
  obtain ⟨piece, more, hpieces, herror⟩ := h.exists_piece
  rw [tokens, hpieces, readPieces, herror]

theorem exists_takeWhile_append (p : Char → Bool) (t more : Text) :
    ∃ tail, (t ++ more).takeWhile p = t.takeWhile p ++ tail := by
  rw [List.takeWhile_append]
  by_cases hall : (t.takeWhile p).length = t.length
  · rw [if_pos hall, (List.takeWhile_prefix p).eq_of_length hall]
    exact ⟨more.takeWhile p, rfl⟩
  · rw [if_neg hall]
    exact ⟨[], (List.append_nil _).symm⟩

theorem Refused.ne_nil (h : Refused source cause) : source ≠ [] := by
  cases h with
  | character _ _ _ | literal _ _ => exact List.cons_ne_nil _ _

/-- What is refused is refused with more text behind it. -/
theorem Refused.append (h : Refused source cause) (more : Text) :
    ∃ grown, Refused (source ++ more) grown ∧ cause.Grows grown := by
  cases h with
  | @character c rest hc hsign hblank =>
    exact ⟨.character c, .character hc hsign hblank, .character c⟩
  | @literal c rest hc hvalue =>
    obtain ⟨tail, htail⟩ := exists_takeWhile_append Text.isAnyDigit rest more
    have hdigits := isAnyDigit_of_mem_literal hc (rest ++ more)
    have hgrown : c :: (rest ++ more).takeWhile Text.isAnyDigit =
        c :: rest.takeWhile Text.isAnyDigit ++ tail := by
      rw [htail, List.cons_append]
    have hnone : Literal.value? (c :: (rest ++ more).takeWhile Text.isAnyDigit) = none := by
      rw [hgrown] at hdigits ⊢
      exact Literal.value?_append_eq_none hdigits hvalue
    refine ⟨.literal (c :: (rest ++ more).takeWhile Text.isAnyDigit), .literal hc hnone, ?_⟩
    rw [hgrown]
    exact .literal _ tail

/-- A fault stays where it is, whatever is put behind the text. -/
theorem tokens_append_of_fault {a : Text} {f : Fault} (h : tokens a = .error f) (b : Text) :
    ∃ cause, tokens (a ++ b) = .error { cause, source := a ++ b, index := f.index } ∧
      f.cause.Grows cause := by
  obtain ⟨_, ⟨ts, hcuts⟩, _, hrefused⟩ := exists_of_tokens_eq_error h
  have hne := hrefused.ne_nil
  have hindex : f.index < a.length := by
    by_contra hle
    exact hne (List.drop_eq_nil_of_le (by omega))
  have hplace : (a ++ b).length - (a.drop f.index ++ b).length = f.index := by
    rw [List.length_append, List.length_append, List.length_drop]
    omega
  obtain ⟨cause, hgrown, hcause⟩ := hrefused.append b
  have hlonger : Cuts (a ++ b) ts (a.drop f.index ++ b) :=
    hcuts.append fun hnil => absurd hnil hne
  refine ⟨cause, ?_, hcause⟩
  rw [hlonger.tokens_eq, hgrown.tokens_eq, hplace]
  rfl

/-- A literal that is too large by its value grows to one that is too long and not
decimal, and a bracket follows. -/
theorem tokens_append_of_fault_nines :
    let nines := List.replicate 78 '9'
    let a := "7 +".toList ++ nines
    let b := "0²)".toList
    tokens a = .error { cause := .literal nines, source := a, index := 3 } ∧
      ∃ cause, tokens (a ++ b) = .error { cause, source := a ++ b, index := 3 } ∧
        (Cause.literal nines).Grows cause := by
  intro nines a b
  have ha : tokens a = .error { cause := .literal nines, source := a, index := 3 } := by
    decide +kernel
  exact ⟨ha, tokens_append_of_fault ha b⟩

end Lexer
end WordCalc
