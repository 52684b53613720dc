import WordCalc.Proofs.Slices
import WordCalc.Proofs.Tokens

/-!
# Seams

What a slice is depends on the text behind it only through the digit that may follow
a literal.  A position of a cut text is the end of a slice or lies within a literal.
-/

namespace WordCalc

namespace Lexer

theorem Cuts.trans {first second rest : Text} {ts us : List Token} (h : Cuts first ts second)
    (h' : Cuts second us rest) : Cuts first (ts ++ us) rest := by
  induction h with
  | nil second => exact h'
  | cons hslice _ ih => exact .cons hslice (ih h')

/-! ## Joining -/

/-- The tokens end in a number and the text starts with a digit, so that a literal
may go on from the one into the other. -/
def RunsOn (ts : List Token) (more : Text) : Prop :=
  ts.getLast?.any Token.isNumber = true ∧ more.head?.any Text.isAnyDigit = true

instance (ts : List Token) (more : Text) : Decidable (RunsOn ts more) :=
  inferInstanceAs (Decidable (_ ∧ _))

theorem RunsOn.cons {ts : List Token} {more : Text} (h : RunsOn ts more) (t : Token) :
    RunsOn (t :: ts) more := by
  obtain ⟨hnumber, hdigit⟩ := h
  refine ⟨?_, hdigit⟩
  rw [List.getLast?_cons]
  cases hlast : ts.getLast? with
  | none => simp [hlast] at hnumber
  | some u => simpa [hlast] using hnumber

theorem Slice.ne_nil {slice rest : Text} {t : Token} (h : Slice slice rest t) : slice ≠ [] := by
  cases h with
  | sign _ | blank _ | literal _ _ _ _ => exact List.cons_ne_nil _ _

theorem Cuts.eq_nil {rest : Text} {ts : List Token} (h : Cuts [] ts rest) :
    ts = [] ∧ rest = [] := by
  generalize hsource : ([] : Text) = source at h
  cases h with
  | nil _ => exact ⟨rfl, rfl⟩
  | cons hslice _ => exact absurd (List.append_eq_nil_iff.mp hsource.symm).1 hslice.ne_nil

theorem Slice.append {slice rest more : Text} {t : Token} (h : Slice slice rest t)
    (hseam : rest = [] → ¬ RunsOn [t] more) : Slice slice (rest ++ more) t := by
  cases h with
  | sign hsign => exact .sign hsign
  | blank hblank => exact .blank hblank
  | @literal c digits _ n hc hdigits hrest hvalue =>
    refine .literal hc hdigits (fun d hd => ?_) hvalue
    cases rest with
    | nil =>
      refine Bool.eq_false_iff.mpr fun hdigit => hseam rfl ⟨rfl, ?_⟩
      rw [show more.head? = some d from hd]
      exact hdigit
    | cons e behind => exact hrest d hd

/-- What has been cut stays cut with more text behind.  Only a literal that ends
with the text could go on. -/
theorem Cuts.append {source rest more : Text} {ts : List Token} (h : Cuts source ts rest)
    (hseam : rest = [] → ¬ RunsOn ts more) : Cuts (source ++ more) ts (rest ++ more) := by
  induction h with
  | nil rest => exact .nil (rest ++ more)
  | @cons slice behind rest t ts hslice hcuts ih =>
    rw [List.append_assoc]
    refine .cons (hslice.append ?_) (ih fun hrest hruns => hseam hrest (hruns.cons t))
    rintro rfl
    obtain ⟨rfl, hrest⟩ := hcuts.eq_nil
    exact hseam hrest

theorem cuts_blanks {blanks : Text} (h : ∀ c ∈ blanks, Text.isBlank c = true) (rest : Text) :
    Cuts (blanks ++ rest) (List.replicate blanks.length { kind := .blank }) rest := by
  induction blanks with
  | nil => exact .nil rest
  | cons c blanks ih =>
    obtain ⟨hc, hblanks⟩ := List.forall_mem_cons.mp h
    have hslice : Slice [c] (blanks ++ rest) { kind := .blank } := .blank hc
    show Cuts ([c] ++ (blanks ++ rest)) _ rest
    exact .cons hslice (ih hblanks)

/-! ## Taking apart -/

/-- The position lies between two characters of one number literal of the
text. -/
def WithinLiteral (source : Text) (i : Nat) : Prop :=
  ∃ before literal after ts n, source = before ++ (literal ++ after) ∧
    Cuts source ts (literal ++ after) ∧ Slice literal after (.number n) ∧
    before.length < i ∧ i < before.length + literal.length

theorem WithinLiteral.exists_isAnyDigit {source : Text} {i : Nat} (h : WithinLiteral source i) :
    ∃ d, source[i]? = some d ∧ Text.isAnyDigit d = true := by
  obtain ⟨before, literal, after, ts, n, rfl, _, hliteral, hlt, hlt'⟩ := h
  obtain ⟨k, rfl⟩ := Nat.exists_eq_add_of_lt hlt
  cases hliteral with
  | @literal c digits _ _ _ hdigits _ _ =>
    rw [List.length_cons] at hlt'
    have hk : k < digits.length := by omega
    refine ⟨digits[k], ?_, hdigits _ (List.getElem_mem hk)⟩
    rw [List.getElem?_append_right (by omega), List.getElem?_append_left (by simp; omega),
      show before.length + k + 1 - before.length = k + 1 by omega, List.getElem?_cons_succ,
      List.getElem?_eq_getElem hk]

theorem WithinLiteral.prepend {slice behind : Text} {t : Token} (hslice : Slice slice behind t)
    {i : Nat} (h : WithinLiteral behind i) :
    WithinLiteral (slice ++ behind) (slice.length + i) := by
  obtain ⟨before, literal, after, ts, n, heq, hcuts, hliteral, hlt, hlt'⟩ := h
  refine ⟨slice ++ before, literal, after, t :: ts, n, ?_, .cons hslice hcuts, hliteral, ?_, ?_⟩
  · rw [heq, List.append_assoc]
  · rw [List.length_append]
    omega
  · rw [List.length_append]
    omega

theorem Slice.withinLiteral {slice rest : Text} {t : Token} (h : Slice slice rest t) {i : Nat}
    (hpos : 0 < i) (hlt : i < slice.length) : WithinLiteral (slice ++ rest) i := by
  cases h with
  | sign _ | blank _ =>
    rw [List.length_singleton] at hlt
    omega
  | @literal c digits _ n hc hdigits hrest hvalue =>
    exact ⟨[], c :: digits, rest, [], n, rfl, .nil _, .literal hc hdigits hrest hvalue, hpos,
      by omega⟩

/-- Each position of a cut text lies within a literal, or the slices end there
and go on from there. -/
theorem Cuts.split_or_withinLiteral {before after : Text} {ts : List Token}
    (h : Cuts (before ++ after) ts []) :
    (∃ us vs, ts = us ++ vs ∧ Cuts (before ++ after) us after ∧ Cuts after vs []) ∨
      WithinLiteral (before ++ after) before.length := by
  generalize hsource : before ++ after = source at h
  generalize hrest : ([] : Text) = rest at h
  induction h generalizing before with
  | nil rest =>
    subst hrest
    obtain ⟨rfl, rfl⟩ := List.append_eq_nil_iff.mp hsource
    exact .inl ⟨[], [], rfl, .nil [], .nil []⟩
  | @cons slice behind rest t ts hslice hcuts ih =>
    subst hrest
    rcases List.append_eq_append_iff.mp hsource with ⟨tail, rfl, rfl⟩ | ⟨tail, rfl, rfl⟩
    · by_cases hstart : before = []
      · subst hstart
        exact .inl ⟨[], t :: ts, rfl, .nil _, .cons hslice hcuts⟩
      by_cases hend : tail = []
      · subst hend
        rw [List.append_nil] at hslice ⊢
        exact .inl ⟨[t], ts, rfl, .cons hslice (.nil _), hcuts⟩
      have hpos := List.length_pos_iff.mpr hstart
      have hpos' := List.length_pos_iff.mpr hend
      exact .inr (hslice.withinLiteral hpos (by rw [List.length_append]; omega))
    · rcases ih rfl rfl with ⟨us, vs, rfl, hus, hvs⟩ | hwithin
      · exact .inl ⟨t :: us, vs, rfl, .cons hslice hus, hvs⟩
      · right
        rw [List.length_append]
        exact hwithin.prepend hslice

/-- Blanks can be put in anywhere but within a literal, and each is a token. -/
theorem tokens_insert_blanks {before blanks after : Text} {ts : List Token}
    (h : tokens (before ++ after) = .ok ts) (hblanks : ∀ c ∈ blanks, Text.isBlank c = true)
    (hplace : ¬ WithinLiteral (before ++ after) before.length) :
    ∃ us vs, ts = us ++ vs ∧ tokens (before ++ (blanks ++ after)) =
      .ok (us ++ (List.replicate blanks.length { kind := .blank } ++ vs)) := by
  rcases (tokens_eq_ok_iff.mp h).split_or_withinLiteral with ⟨us, vs, rfl, hus, hvs⟩ | hwithin
  · refine ⟨us, vs, rfl, ?_⟩
    cases blanks with
    | nil => exact h
    | cons c rest =>
      have hseam : ¬ RunsOn us (c :: rest ++ after) := by
        simp [RunsOn, Text.isAnyDigit_eq_false_of_isBlank (hblanks c List.mem_cons_self)]
      exact tokens_eq_ok_iff.mpr
        ((hus.of_append.append fun _ => hseam).trans ((cuts_blanks hblanks after).trans hvs))
  · exact absurd hwithin hplace

end Lexer
end WordCalc
