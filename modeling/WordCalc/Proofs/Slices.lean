import Mathlib.Order.Bounds.Basic
import WordCalc.Lexer
import WordCalc.Proofs.Numerals
import WordCalc.Proofs.Outcome

/-!
# Slices of source texts

The language of the lexer, said without running it.  Behind the first digit of a
refused literal no slice may start either, so the fault is at the leftmost position
that can be cut up to and where no slice starts.
-/

namespace WordCalc

namespace Lexer

def signs : List (Char × Token.Kind) :=
  [('(', .bracketOpen), (')', .bracketClose), ('+', .plus), ('-', .minus), ('*', .star),
    ('/', .slash)]

/-- A slice with the text behind it, and the token that it stands for. -/
inductive Slice : Text → Text → Token → Prop
  | sign {c : Char} {kind : Token.Kind} {rest : Text} :
    (c, kind) ∈ signs → Slice [c] rest { kind }
  | blank {c : Char} {rest : Text} :
    Text.isBlank c = true → Slice [c] rest { kind := .blank }
  | literal {c : Char} {digits rest : Text} {n : Int} :
    c.isDigit = true → (∀ d ∈ digits, Text.isAnyDigit d = true) →
      (∀ d ∈ rest.head?, Text.isAnyDigit d = false) → Literal.value? (c :: digits) = some n →
      Slice (c :: digits) rest (.number n)

/-- The text is cut into slices up to the rest, one slice for each token. -/
inductive Cuts : Text → List Token → Text → Prop
  | nil (rest : Text) : Cuts rest [] rest
  | cons {slice behind rest : Text} {t : Token} {ts : List Token} :
    Slice slice behind t → Cuts behind ts rest → Cuts (slice ++ behind) (t :: ts) rest

def StartsSlice (source : Text) : Prop := ∃ slice rest t, source = slice ++ rest ∧ Slice slice rest t

/-- What is wrong with a text at whose start there is no slice. -/
inductive Refused : Text → Cause → Prop
  | character {c : Char} {rest : Text} :
    c.isDigit = false → (∀ kind, (c, kind) ∉ signs) → Text.isBlank c = false →
      Refused (c :: rest) (.character c)
  | literal {c : Char} {rest : Text} :
    c.isDigit = true → Literal.value? (c :: rest.takeWhile Text.isAnyDigit) = none →
      Refused (c :: rest) (.literal (c :: rest.takeWhile Text.isAnyDigit))

theorem Refused.unique {source : Text} {first second : Cause} (ha : Refused source first)
    (hb : Refused source second) : first = second := by
  cases ha with
  | character hc _ _ =>
    cases hb with
    | character _ _ _ => rfl
    | literal hc' _ =>
      rw [hc] at hc'
      cases hc'
  | literal hc _ =>
    cases hb with
    | character hc' _ _ =>
      rw [hc] at hc'
      cases hc'
    | literal _ _ => rfl

/-! ## Slices and pieces -/

theorem ofSign?_eq_some_iff {c : Char} {kind : Token.Kind} :
    Token.Kind.ofSign? c = some kind ↔ (c, kind) ∈ signs := by
  constructor
  · intro h
    unfold Token.Kind.ofSign? at h
    split at h <;> cases h <;> decide
  · intro h
    simp only [signs, List.mem_cons, Prod.mk.injEq, List.not_mem_nil, or_false] at h
    rcases h with ⟨rfl, rfl⟩ | ⟨rfl, rfl⟩ | ⟨rfl, rfl⟩ | ⟨rfl, rfl⟩ | ⟨rfl, rfl⟩ | ⟨rfl, rfl⟩ <;>
      rfl

theorem ofSign?_eq_none_iff {c : Char} :
    Token.Kind.ofSign? c = none ↔ ∀ kind, (c, kind) ∉ signs := by
  simp only [Option.eq_none_iff_forall_ne_some, ne_eq, ofSign?_eq_some_iff]

theorem not_isDigit_and_not_isBlank_of_mem_signs :
    ∀ sign ∈ signs, sign.1.isDigit = false ∧ Text.isBlank sign.1 = false := by
  decide

theorem ofSign?_of_isBlank {c : Char} (h : Text.isBlank c = true) :
    Token.Kind.ofSign? c = none := by
  refine ofSign?_eq_none_iff.mpr fun kind hsign => ?_
  rw [(not_isDigit_and_not_isBlank_of_mem_signs _ hsign).2] at h
  cases h

theorem isDigit_of_isBlank {c : Char} (h : Text.isBlank c = true) : c.isDigit = false := by
  cases hc : c.isDigit with
  | false => rfl
  | true =>
    rw [Text.isBlank_eq_false_of_isAnyDigit (Text.isAnyDigit_of_isDigit hc)] at h
    cases h

theorem pieces_of_isDigit {c : Char} (hc : c.isDigit = true) (rest : Text) :
    pieces (c :: rest) = .literal (c :: rest.takeWhile Text.isAnyDigit) ::
      pieces (rest.dropWhile Text.isAnyDigit) := by
  rw [pieces, if_pos hc]

theorem pieces_of_not_isDigit {c : Char} (hc : c.isDigit = false) (rest : Text) :
    pieces (c :: rest) = .single c :: pieces rest := by
  rw [pieces, if_neg (by rw [hc]; decide)]

theorem isAnyDigit_of_mem_literal {c : Char} (hc : c.isDigit = true) (rest : Text) :
    ∀ d ∈ c :: rest.takeWhile Text.isAnyDigit, Text.isAnyDigit d = true :=
  List.forall_mem_cons.mpr ⟨Text.isAnyDigit_of_isDigit hc, fun _ hd =>
    List.all_eq_true.mp List.all_takeWhile _ hd⟩

theorem takeWhile_append {digits rest : Text} (hdigits : ∀ d ∈ digits, Text.isAnyDigit d = true)
    (hrest : ∀ d ∈ rest.head?, Text.isAnyDigit d = false) :
    (digits ++ rest).takeWhile Text.isAnyDigit = digits ∧
      (digits ++ rest).dropWhile Text.isAnyDigit = rest := by
  rw [List.takeWhile_append_of_pos hdigits, List.dropWhile_append_of_pos hdigits]
  cases rest with
  | nil => exact ⟨List.append_nil _, rfl⟩
  | cons d more =>
    have hd : ¬ Text.isAnyDigit d = true := by
      rw [hrest d rfl]
      decide
    rw [List.takeWhile_cons_of_neg hd, List.dropWhile_cons_of_neg hd]
    exact ⟨List.append_nil _, rfl⟩

/-- A slice is the first piece of a text, and the piece is read as its token. -/
theorem Slice.exists_piece {slice rest : Text} {t : Token} (h : Slice slice rest t) :
    ∃ piece, token piece = .ok t ∧ piece.text = slice ∧
      pieces (slice ++ rest) = piece :: pieces rest := by
  cases h with
  | @sign c kind _ hsign =>
    have hc : c.isDigit = false := (not_isDigit_and_not_isBlank_of_mem_signs _ hsign).1
    refine ⟨.single c, ?_, rfl, pieces_of_not_isDigit hc rest⟩
    rw [token, ofSign?_eq_some_iff.mpr hsign]
  | @blank c _ hblank =>
    refine ⟨.single c, ?_, rfl, pieces_of_not_isDigit (isDigit_of_isBlank hblank) rest⟩
    simp only [token, ofSign?_of_isBlank hblank, hblank, if_true]
  | @literal c digits _ n hc hdigits hrest hvalue =>
    obtain ⟨htake, hdrop⟩ := takeWhile_append hdigits hrest
    refine ⟨.literal (c :: digits), ?_, rfl, ?_⟩
    · rw [token, literalValue, hvalue]
      rfl
    · rw [List.cons_append, pieces_of_isDigit hc, htake, hdrop]

theorem slice_or_refused_of_isDigit {c : Char} (hc : c.isDigit = true) (rest : Text) :
    let digits := c :: rest.takeWhile Text.isAnyDigit
    (∃ t, token (.literal digits) = .ok t ∧
      Slice digits (rest.dropWhile Text.isAnyDigit) t) ∨
    ∃ cause, token (.literal digits) = .error cause ∧ Refused (c :: rest) cause := by
  intro digits
  cases hvalue : Literal.value? digits with
  | none =>
    refine .inr ⟨_, ?_, .literal hc hvalue⟩
    rw [token, literalValue, hvalue]
    rfl
  | some n =>
    refine .inl ⟨.number n, ?_, .literal hc ?_ ?_ hvalue⟩
    · rw [token, literalValue, hvalue]
      rfl
    · exact fun d hd => List.all_eq_true.mp List.all_takeWhile d hd
    · intro d hd
      have hnot := List.head?_dropWhile_not Text.isAnyDigit rest
      rw [Option.mem_def.mp hd] at hnot
      exact hnot

theorem slice_or_refused_of_not_isDigit {c : Char} (hc : c.isDigit = false) (rest : Text) :
    (∃ t, token (.single c) = .ok t ∧ Slice [c] rest t) ∨
    ∃ cause, token (.single c) = .error cause ∧ Refused (c :: rest) cause := by
  cases hsign : Token.Kind.ofSign? c with
  | some kind => exact .inl ⟨{ kind }, by rw [token, hsign], .sign (ofSign?_eq_some_iff.mp hsign)⟩
  | none =>
    cases hblank : Text.isBlank c with
    | true =>
      refine .inl ⟨{ kind := .blank }, ?_, .blank hblank⟩
      simp only [token, hsign, hblank, if_true]
    | false =>
      refine .inr ⟨.character c, ?_, .character hc (ofSign?_eq_none_iff.mp hsign) hblank⟩
      simp only [token, hsign, hblank, Bool.false_eq_true, if_false]

/-- The first piece of a text is a slice, or the text is refused for it. -/
theorem slice_or_refused {source : Text} {piece : Piece} {more : List Piece}
    (h : pieces source = piece :: more) :
    (∃ rest t, source = piece.text ++ rest ∧ more = pieces rest ∧ token piece = .ok t ∧
      Slice piece.text rest t) ∨
    ∃ cause, token piece = .error cause ∧ Refused source cause := by
  cases source with
  | nil =>
    rw [pieces] at h
    cases h
  | cons c rest =>
    cases hc : c.isDigit with
    | true =>
      rw [pieces_of_isDigit hc] at h
      obtain ⟨rfl, rfl⟩ := List.cons.inj h
      rcases slice_or_refused_of_isDigit hc rest with ⟨t, ht, hslice⟩ | hrefused
      · refine .inl ⟨_, t, ?_, rfl, ht, hslice⟩
        rw [Piece.text, List.cons_append, List.takeWhile_append_dropWhile]
      · exact .inr hrefused
    | false =>
      rw [pieces_of_not_isDigit hc] at h
      obtain ⟨rfl, rfl⟩ := List.cons.inj h
      rcases slice_or_refused_of_not_isDigit hc rest with ⟨t, ht, hslice⟩ | hrefused
      · exact .inl ⟨rest, t, rfl, rfl, ht, hslice⟩
      · exact .inr hrefused

/-- The first piece of a refused text is what is wrong with it. -/
theorem Refused.exists_piece {source : Text} {cause : Cause} (h : Refused source cause) :
    ∃ piece more, pieces source = piece :: more ∧ token piece = .error cause := by
  cases h with
  | @character c rest hc hsign hblank =>
    refine ⟨.single c, pieces rest, pieces_of_not_isDigit hc rest, ?_⟩
    simp [token, ofSign?_eq_none_iff.mpr hsign, hblank]
  | @literal c rest hc hvalue =>
    refine ⟨_, _, pieces_of_isDigit hc rest, ?_⟩
    rw [token, literalValue, hvalue]
    rfl

theorem Refused.not_startsSlice {source : Text} {cause : Cause} (h : Refused source cause) :
    ¬ StartsSlice source := by
  rintro ⟨slice, rest, t, rfl, hslice⟩
  obtain ⟨first, _, hfirst, herror⟩ := h.exists_piece
  obtain ⟨piece, ht, _, hpieces⟩ := hslice.exists_piece
  rw [hfirst] at hpieces
  rw [← (List.cons.inj hpieces).1, herror] at ht
  cases ht

/-! ## Cutting from the left -/

theorem Slice.of_append {slice a b : Text} {t : Token} (h : Slice slice (a ++ b) t) :
    Slice slice a t := by
  cases h with
  | sign hsign => exact .sign hsign
  | blank hblank => exact .blank hblank
  | literal hc hdigits hrest hvalue =>
    refine .literal hc hdigits (fun d hd => hrest d ?_) hvalue
    rw [Option.mem_def] at hd ⊢
    rw [List.head?_append, hd, Option.some_or]

/-- What is cut up to the rest can also be cut by itself, and its slices are the
first pieces of the whole. -/
theorem Cuts.exists_append {source rest : Text} {ts : List Token} (h : Cuts source ts rest) :
    ∃ before, source = before ++ rest ∧ Cuts before ts [] ∧ ∀ whole index,
      readPieces whole index (pieces source) =
        (readPieces whole (index + before.length) (pieces rest)).map (ts ++ ·) := by
  induction h with
  | nil rest =>
    refine ⟨[], rfl, .nil [], fun whole index => ?_⟩
    show _ = (readPieces whole index (pieces rest)).map id
    cases readPieces whole index (pieces rest) <;> rfl
  | @cons slice behind rest t ts hslice _ ih =>
    obtain ⟨before, rfl, hcuts, hread⟩ := ih
    obtain ⟨piece, ht, rfl, hpieces⟩ := hslice.exists_piece
    refine ⟨piece.text ++ before, (List.append_assoc _ _ _).symm, .cons hslice.of_append hcuts,
      fun whole index => ?_⟩
    rw [hpieces, readPieces, ht]
    simp only [hread, List.length_append, Nat.add_assoc]
    cases readPieces whole (index + (piece.text.length + before.length)) (pieces rest) <;> rfl

theorem Cuts.of_append {before rest : Text} {ts : List Token} (h : Cuts (before ++ rest) ts rest) :
    Cuts before ts [] := by
  obtain ⟨before', heq, hcuts, _⟩ := h.exists_append
  rwa [List.append_cancel_right heq]

/-- Every text can be cut to its end or to a place where it is refused. -/
theorem cuts_or_refused (whole source : Text) (index : Nat) :
    (∃ ts, readPieces whole index (pieces source) = .ok ts ∧ Cuts source ts []) ∨
    ∃ before rest ts cause, source = before ++ rest ∧ Cuts source ts rest ∧ Refused rest cause ∧
      readPieces whole index (pieces source) = .error ⟨cause, whole, index + before.length⟩ := by
  generalize h : pieces source = ps
  induction ps generalizing source index with
  | nil =>
    cases source with
    | nil => exact .inl ⟨[], rfl, .nil []⟩
    | cons c rest =>
      rw [pieces] at h
      split at h <;> cases h
  | cons piece more ih =>
    rcases slice_or_refused h with ⟨rest, t, rfl, hmore, ht, hslice⟩ | ⟨cause, hcause, hrefused⟩
    · rcases ih rest (index + piece.text.length) hmore.symm with
        ⟨ts, hts, hcuts⟩ | ⟨before, tail, ts, cause, rfl, hcuts, hrefused, herror⟩
      · refine .inl ⟨t :: ts, ?_, .cons hslice hcuts⟩
        rw [readPieces, ht]
        simp only [hts, Outcome.map_ok]
      · refine .inr ⟨piece.text ++ before, tail, t :: ts, cause, (List.append_assoc _ _ _).symm,
          .cons hslice hcuts, hrefused, ?_⟩
        rw [readPieces, ht]
        simp only [herror, Outcome.map_error, List.length_append, Nat.add_assoc]
    · refine .inr ⟨[], source, [], cause, rfl, .nil source, hrefused, ?_⟩
      rw [readPieces, hcause]
      rfl

theorem tokens_eq_ok_iff {source : Text} {ts : List Token} :
    tokens source = .ok ts ↔ Cuts source ts [] := by
  constructor
  · intro h
    rcases cuts_or_refused source source 0 with
      ⟨ts', hts, hcuts⟩ | ⟨_, _, _, _, _, _, _, herror⟩
    · rw [tokens, hts] at h
      cases h
      exact hcuts
    · rw [tokens, herror] at h
      cases h
  · intro h
    obtain ⟨before, _, _, hread⟩ := h.exists_append
    rw [tokens, hread, pieces, readPieces, Outcome.map_ok, List.append_nil]

/-! ## The leftmost fault -/

/-- Every end of a slice is one. -/
theorem Slice.exists_of_append {a b rest : Text} {t : Token} (h : Slice (a ++ b) rest t)
    (hb : b ≠ []) : ∃ u, Slice b rest u := by
  cases a with
  | nil => exact ⟨t, h⟩
  | cons c a =>
    rw [List.cons_append] at h
    generalize hdigits : a ++ b = digits at h
    cases h with
    | sign _ => exact absurd (List.append_eq_nil_iff.mp hdigits).2 hb
    | blank _ => exact absurd (List.append_eq_nil_iff.mp hdigits).2 hb
    | literal hc hall hrest hvalue =>
      subst hdigits
      have hdigits : ∀ d ∈ c :: (a ++ b), Text.isAnyDigit d = true :=
        List.forall_mem_cons.mpr ⟨Text.isAnyDigit_of_isDigit hc, hall⟩
      have hdecimal := Literal.isDigit_of_value? hvalue hdigits
      obtain ⟨m, hm⟩ := (Literal.exists_value?_of_append (a := c :: a) hvalue hdecimal).2
      match b, hb with
      | d :: more, _ =>
        have hmem : ∀ e ∈ d :: more, e ∈ a ++ d :: more := fun e he => List.mem_append_right a he
        refine ⟨.number m, .literal ?_ ?_ hrest hm⟩
        · exact hdecimal d (List.mem_cons_of_mem c (hmem d List.mem_cons_self))
        · exact fun e he => hall e (hmem e (List.mem_cons_of_mem d he))

/-- A slice starts wherever a cut has passed, within a literal too. -/
theorem Cuts.startsSlice_drop {source rest : Text} {ts : List Token} (h : Cuts source ts rest)
    {i : Nat} (hi : i + rest.length < source.length) : StartsSlice (source.drop i) := by
  induction h generalizing i with
  | nil rest => omega
  | @cons slice behind rest t ts hslice _ ih =>
    rw [List.length_append] at hi
    by_cases hwithin : i < slice.length
    · have hsplit : slice.take i ++ slice.drop i = slice := List.take_append_drop i slice
      have hne : slice.drop i ≠ [] := by
        intro hnil
        have := List.drop_eq_nil_iff.mp hnil
        omega
      rw [← hsplit] at hslice
      obtain ⟨u, hu⟩ := hslice.exists_of_append hne
      exact ⟨slice.drop i, behind, u, List.drop_append_of_le_length (Nat.le_of_lt hwithin), hu⟩
    · have hle : slice.length ≤ i := Nat.not_lt.mp hwithin
      have hdrop : (slice ++ behind).drop i = behind.drop (i - slice.length) := by
        rw [List.drop_append, List.drop_eq_nil_of_le hle, List.nil_append]
      rw [hdrop]
      exact ih (by omega)

/-- The text in front of the position can be cut, and no slice starts there. -/
def StuckAt (source : Text) (i : Nat) : Prop :=
  (∃ ts, Cuts (source.take i) ts []) ∧ ¬ StartsSlice (source.drop i)

theorem isLeast_of_refused {before rest : Text} {ts : List Token} {cause : Cause}
    (hcuts : Cuts (before ++ rest) ts rest) (hrefused : Refused rest cause) :
    IsLeast {i | StuckAt (before ++ rest) i} before.length := by
  constructor
  · refine ⟨⟨ts, ?_⟩, ?_⟩
    · rw [List.take_left]
      exact hcuts.of_append
    · rw [List.drop_left]
      exact hrefused.not_startsSlice
  · intro i hi
    by_contra hlt
    refine hi.2 (hcuts.startsSlice_drop ?_)
    rw [List.length_append]
    omega

theorem exists_of_tokens_eq_error {source : Text} {f : Fault} (h : tokens source = .error f) :
    f.source = source ∧ (∃ ts, Cuts source ts (source.drop f.index)) ∧
      IsLeast {i | StuckAt source i} f.index ∧ Refused (source.drop f.index) f.cause := by
  rcases cuts_or_refused source source 0 with
    ⟨ts, hts, _⟩ | ⟨before, rest, ts, cause, rfl, hcuts, hrefused, herror⟩
  · rw [tokens, hts] at h
    cases h
  · rw [tokens, herror, Nat.zero_add] at h
    cases h
    refine ⟨rfl, ⟨ts, ?_⟩, isLeast_of_refused hcuts hrefused, ?_⟩
    · rwa [List.drop_left]
    · rwa [List.drop_left]

/-- The tokens of a text are those of its slices, and a text that has none is
refused at the leftmost position where its slices cannot go on. -/
theorem tokens_eq_iff_cuts (source : Text) :
    (∀ ts, tokens source = .ok ts ↔ Cuts source ts []) ∧
    ∀ f, tokens source = .error f ↔
      (¬ ∃ ts, Cuts source ts []) ∧ f.source = source ∧
        (∃ ts, Cuts source ts (source.drop f.index)) ∧
        IsLeast {i | StuckAt source i} f.index ∧ Refused (source.drop f.index) f.cause := by
  refine ⟨fun ts => tokens_eq_ok_iff, fun f => ⟨fun h => ⟨?_, exists_of_tokens_eq_error h⟩, ?_⟩⟩
  · rintro ⟨ts, hcuts⟩
    rw [tokens_eq_ok_iff.mpr hcuts] at h
    cases h
  · rintro ⟨hnone, hsource, _, hleast, hrefused⟩
    cases h : tokens source with
    | ok ts => exact absurd ⟨ts, tokens_eq_ok_iff.mp h⟩ hnone
    | error g =>
      obtain ⟨hsource', _, hleast', hrefused'⟩ := exists_of_tokens_eq_error h
      have hindex : f.index = g.index := hleast.unique hleast'
      rw [hindex] at hrefused
      have hcause : f.cause = g.cause := hrefused.unique hrefused'
      obtain ⟨cause, whole, index⟩ := f
      obtain ⟨cause', whole', index'⟩ := g
      simp only at hsource hsource' hindex hcause
      rw [hsource, hsource', hindex, hcause]

example : tokens "7+1²".toList =
    .error { cause := .literal "1²".toList, source := "7+1²".toList, index := 2 } := by
  decide +kernel

end Lexer
end WordCalc
