import WordCalc.Proofs.Blanks

/-!
# Rendering

Each token that is not blank is written as a slice, and so is the space between two
of them, on which no literal can go on.
-/

namespace WordCalc

namespace Decimal

theorem ofInt_natCast (n : Nat) : ofInt n = ofNat n := by
  rw [ofInt, if_neg (by omega), Int.natAbs_natCast]

theorem isDigit_of_mem_ofNat {n : Nat} {c : Char} (h : c ∈ ofNat n) : c.isDigit = true :=
  Nat.isDigit_of_mem_toDigits (by decide) (by decide) h

theorem value_ofNat (n : Nat) : value (ofNat n) = n := Nat.ofDigitChars_ten_toDigits

theorem ofNat_ne_nil (n : Nat) : ofNat n ≠ [] := Nat.toDigits_ne_nil

theorem ofInt_ne_nil (n : Int) : ofInt n ≠ [] := by
  unfold ofInt
  split
  · exact List.cons_ne_nil _ _
  · exact ofNat_ne_nil _

theorem newline_notMem_ofInt (n : Int) : '\n' ∉ ofInt n := by
  have hdigits : '\n' ∉ ofNat n.natAbs := fun h => absurd (isDigit_of_mem_ofNat h) (by decide)
  unfold ofInt
  split
  · exact List.not_mem_cons_of_ne_of_not_mem (by decide) hdigits
  · exact hdigits

end Decimal

/-- The digits of a word are a literal for it. -/
theorem Literal.value?_ofNat {n : Nat} (h : Word.Fits n) :
    value? (Decimal.ofNat n) = some (n : Int) := by
  rw [value?_of_isDigit fun _ => Decimal.isDigit_of_mem_ofNat, Decimal.value_ofNat,
    if_pos (Int.ofNat_le.mp h.2)]

namespace Lexer

open Token (visible)

theorem slice_ofNat {n : Nat} (h : Word.Fits n) {rest : Text}
    (hrest : ∀ d ∈ rest.head?, Text.isAnyDigit d = false) :
    Slice (Decimal.ofNat n) rest (.number n) := by
  have hvalue := Literal.value?_ofNat h
  have hdigits : ∀ c ∈ Decimal.ofNat n, c.isDigit = true := fun _ => Decimal.isDigit_of_mem_ofNat
  cases hn : Decimal.ofNat n with
  | nil => exact absurd hn (Decimal.ofNat_ne_nil n)
  | cons c digits =>
    rw [hn] at hvalue hdigits
    obtain ⟨hc, hdigits⟩ := List.forall_mem_cons.mp hdigits
    exact .literal hc (fun d hd => Text.isAnyDigit_of_isDigit (hdigits d hd)) hrest hvalue

/-- A token that is not blank is written as a slice, unless a digit follows. -/
theorem slice_text {t : Token} (h : t.IsLexed) (hk : t.kind ≠ .blank) {rest : Text}
    (hrest : ∀ d ∈ rest.head?, Text.isAnyDigit d = false) : Slice t.text rest t := by
  rcases h with ⟨n, rfl, hn⟩ | ⟨hn, hv⟩
  · obtain ⟨m, rfl⟩ := Int.eq_ofNat_of_zero_le hn.1
    have htext : (Token.number m).text = Decimal.ofNat m := Decimal.ofInt_natCast m
    rw [htext]
    exact slice_ofNat hn hrest
  · obtain ⟨kind, value⟩ := t
    cases hv
    cases kind with
    | number => cases hn
    | blank => exact absurd rfl hk
    | _ => exact .sign (by decide)

theorem cuts_spaced {ts : List Token} (h : ∀ t ∈ ts, t.IsLexed ∧ t.kind ≠ .blank) :
    Cuts (Text.spaced (ts.map Token.text)) (ts.intersperse { kind := .blank }) [] := by
  induction ts with
  | nil => exact .nil []
  | cons t ts ih =>
    obtain ⟨⟨ht, hk⟩, hts⟩ := List.forall_mem_cons.mp h
    have hrest := ih hts
    cases ts with
    | nil =>
      show Cuts (t.text ++ []) [t] []
      exact .cons (slice_text ht hk fun d hd => by cases hd) (.nil [])
    | cons u ts =>
      have hspace : Slice [' '] (Text.spaced ((u :: ts).map Token.text)) { kind := .blank } :=
        .blank (by decide)
      have hdigit : ∀ d ∈ (' ' :: Text.spaced ((u :: ts).map Token.text)).head?,
          Text.isAnyDigit d = false := by
        intro d hd
        cases hd
        decide
      rw [List.intersperse_cons_cons, List.map_cons, List.map_cons, Text.spaced,
        List.intercalate_cons_cons, List.append_assoc]
      exact .cons (slice_text ht hk hdigit) (.cons hspace hrest)

theorem tokens_render {ts : List Token} (h : ∀ t ∈ ts, t.IsLexed) :
    tokens (Token.render ts) = .ok ((visible ts).intersperse { kind := .blank }) := by
  refine tokens_eq_ok_iff.mpr (cuts_spaced fun t ht => ?_)
  obtain ⟨hmem, hk⟩ := List.mem_filter.mp ht
  exact ⟨h t hmem, bne_iff_ne.mp hk⟩

end Lexer

theorem Token.visible_intersperse_blank {b : Token} (hb : b.kind = .blank) (ts : List Token) :
    visible ((visible ts).intersperse b) = visible ts := by
  have hshown : ∀ t ∈ visible ts, t.kind ≠ .blank := fun t ht =>
    bne_iff_ne.mp (List.mem_filter.mp ht).2
  generalize visible ts = shown at hshown
  induction shown with
  | nil => rfl
  | cons t rest ih =>
    obtain ⟨ht, hrest⟩ := List.forall_mem_cons.mp hshown
    cases rest with
    | nil => exact visible_cons ht []
    | cons u rest =>
      rw [List.intersperse_cons_cons, visible_cons ht, visible_cons_blank hb, ih hrest]

namespace Calculation

/-- Tokens that are written and read again are the same but for the blanks, which
are now one between neighbours, and the calculation ends as it would have. -/
theorem render_lossless :
    (∀ ts : List Token, (∀ t ∈ ts, t.IsLexed) → Lexer.tokens (Token.render ts) =
      .ok ((Token.visible ts).intersperse { kind := .blank })) ∧
    ∀ (source : Text) (ts : List Token) (capacity : Int), Lexer.tokens source = .ok ts →
      (calculate capacity (Token.render ts)).mapError Fault.shown =
        (calculate capacity source).mapError Fault.shown := by
  refine ⟨fun ts => Lexer.tokens_render, fun source ts capacity hlex => ?_⟩
  exact calculate_eq_of_visible_eq (Lexer.tokens_render (Lexer.isLexed_of_tokens hlex)) hlex
    (Token.visible_intersperse_blank rfl ts) capacity

/-- The largest word next to another number, a blank and a bracket that is left
open: no digits run together and the report stays the same. -/
theorem render_lossless_largest :
    let largest : Token := .number Word.largest
    let ts : List Token := [largest, .number 7, { kind := .blank }, { kind := .bracketOpen }]
    let source := "0".toList ++ Decimal.ofNat Word.largest ++ " 7\t(".toList
    (∀ t ∈ ts, t.IsLexed) ∧
      Lexer.tokens (Token.render ts) = .ok [largest, { kind := .blank }, .number 7,
        { kind := .blank }, { kind := .bracketOpen }] ∧
      ∃ us, Lexer.tokens source = .ok us ∧
        (calculate 8 (Token.render us)).mapError Fault.shown =
          (calculate 8 source).mapError Fault.shown := by
  intro largest ts source
  have hlexed : ∀ t ∈ ts, t.IsLexed := by
    simp only [ts, List.forall_mem_cons]
    exact ⟨.inl ⟨_, rfl, by decide⟩, .inl ⟨7, rfl, by decide⟩, .inr ⟨rfl, rfl⟩, .inr ⟨rfl, rfl⟩,
      List.forall_mem_nil _⟩
  have hlex : Lexer.tokens source = .ok [largest, { kind := .blank }, .number 7,
      { kind := .blank }, { kind := .bracketOpen }] := by
    decide +kernel
  exact ⟨hlexed, render_lossless.1 ts hlexed, _, hlex, render_lossless.2 source _ 8 hlex⟩

end Calculation
end WordCalc
