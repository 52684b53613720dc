import WordCalc.Proofs.Layout
import WordCalc.Proofs.Rendering
import WordCalc.Proofs.Unmatched

/-!
# Where the caret stands under tokens

The column is computed from the tokens in front alone.  No token that is shown is
empty, so what is rendered in front is empty only if nothing is in front.
-/

namespace WordCalc

theorem Polish.column_of_ne_nil {front : Text} (h : front ≠ []) :
    column front = front.length + 1 := by
  cases front with
  | nil => exact absurd rfl h
  | cons c rest => rfl

namespace Token

theorem text_ne_nil {t : Token} (h : t.kind ≠ .blank) : t.text ≠ [] := by
  obtain ⟨kind, value⟩ := t
  cases kind with
  | blank => exact absurd rfl h
  | number =>
    cases value with
    | none => exact List.cons_ne_nil _ _
    | some n => exact Decimal.ofInt_ne_nil n
  | _ => exact List.cons_ne_nil _ _

theorem newline_notMem_text (t : Token) : '\n' ∉ t.text := by
  obtain ⟨kind, value⟩ := t
  cases kind with
  | number =>
    cases value with
    | none => exact (by decide : '\n' ∉ "None".toList)
    | some n => exact Decimal.newline_notMem_ofInt n
  | _ => simp [text]

theorem newline_notMem_render (tokens : List Token) : '\n' ∉ render tokens := by
  intro h
  rcases Text.mem_spaced h with hspace | ⟨part, hpart, hc⟩
  · exact absurd hspace (by decide)
  · obtain ⟨t, _, rfl⟩ := List.mem_map.mp hpart
    exact newline_notMem_text t hc

/-- What is shown in front of the token with the index: the tokens before it that
are not blank, each with a space behind it. -/
def ahead (tokens : List Token) (index : Nat) : Text :=
  (visible (tokens.take index)).flatMap fun t => t.text ++ [' ']

/-- What is shown behind the token with the index. -/
def behind (tokens : List Token) (index : Nat) : Text :=
  (visible (tokens.drop (index + 1))).flatMap fun t => ' ' :: t.text

theorem render_eq_ahead {tokens : List Token} {index : Nat} {t : Token}
    (ht : tokens[index]? = some t) (hk : t.kind ≠ .blank) :
    render tokens = ahead tokens index ++ (t.text ++ behind tokens index) := by
  obtain ⟨hlt, rfl⟩ := List.getElem?_eq_some_iff.mp ht
  have hsplit : visible tokens = visible (tokens.take index) ++
      tokens[index] :: visible (tokens.drop (index + 1)) := by
    rw [← visible_cons hk, ← visible_append, ← List.drop_eq_getElem_cons hlt,
      List.take_append_drop]
  rw [render_eq, hsplit, List.map_append, List.map_cons, Text.spaced_append_cons, List.flatMap_map,
    List.flatMap_map]
  rfl

/-- A caret for the token with the index stands behind what is shown in front of
it. -/
theorem column_eq_length_ahead (tokens : List Token) (index : Nat) :
    Polish.column (render (tokens.take index)) = (ahead tokens index).length := by
  have hshown : ∀ t ∈ visible (tokens.take index), t.text ≠ [] := fun t ht =>
    text_ne_nil (bne_iff_ne.mp (List.mem_filter.mp ht).2)
  have hahead : ahead tokens index =
      ((visible (tokens.take index)).map text).flatMap (· ++ [' ']) := by
    rw [List.flatMap_map]
    rfl
  rw [render_eq, hahead]
  cases hvisible : visible (tokens.take index) with
  | nil => rfl
  | cons u before =>
    have hne : (u :: before).map text ≠ [] := by simp
    have hspaced : Text.spaced ((u :: before).map text) ≠ [] := by
      rw [List.map_cons, Text.spaced_cons]
      have hu := hshown u (by rw [hvisible]; exact List.mem_cons_self)
      exact List.append_ne_nil_of_left_ne_nil hu _
    -- the test for the space is whether any text is in front, not whether any token is
    rw [← Text.spaced_append_space hne, Polish.column_of_ne_nil hspaced, List.length_append,
      List.length_singleton]

end Token

namespace Polish

open Token (render ahead excess Writable writeAll)

/-- The text ends in a line that shows the tokens and a line with a caret under the
token with the index.  The token is shown there as `shown`, up to a space or the
end, and in front of it is what comes before it. -/
def CaretUnder (told : Text) (tokens : List Token) (index : Nat) (shown : Text) : Prop :=
  ∃ headline right,
    told = headline ++ '\n' :: (render tokens ++
      '\n' :: (List.replicate (ahead tokens index).length ' ' ++ ['^'])) ∧
    '\n' ∉ render tokens ∧ render tokens = ahead tokens index ++ (shown ++ right) ∧
    (right = [] ∨ right.head? = some ' ')

theorem report_eq (summary : Text) (tokens : List Token) (index : Nat) :
    report summary tokens index = ("Parser error: ".toList ++ summary) ++ '\n' ::
      (render tokens ++ '\n' :: (List.replicate (ahead tokens index).length ' ' ++ ['^'])) := by
  unfold report layout
  rw [Token.column_eq_length_ahead]
  generalize "Parser error: ".toList ++ summary = headline
  rw [List.append_assoc]
  rfl

theorem caretUnder_report (summary : Text) {tokens : List Token} {index : Nat} {t : Token}
    (ht : tokens[index]? = some t) (hk : t.kind ≠ .blank) :
    CaretUnder (report summary tokens index) tokens index t.text := by
  refine ⟨_, Token.behind tokens index, report_eq summary tokens index,
    Token.newline_notMem_render tokens, Token.render_eq_ahead ht hk, ?_⟩
  unfold Token.behind
  cases Token.visible (tokens.drop (index + 1)) with
  | nil => exact .inl rfl
  | cons u rest => exact .inr rfl

/-! ## The bracket that is reported -/

/-- An opening bracket such that no stretch from it on is balanced. -/
def IsUnclosed (tokens : List Token) (i : Nat) : Prop :=
  (∃ t, tokens[i]? = some t ∧ t.kind = .bracketOpen) ∧
    ∀ n, 0 < n → excess ((tokens.drop i).take n) < 0

/-- A closing bracket such that no stretch up to it is balanced. -/
def IsUnopened (tokens : List Token) (j : Nat) : Prop :=
  (∃ t, tokens[j]? = some t ∧ t.kind = .bracketClose) ∧
    ∀ n, n ≤ j → 0 < excess ((tokens.take (j + 1)).drop n)

theorem isUnclosed_of_isGreatest {tokens : List Token} {i : Nat} (hi : i < tokens.length)
    (h : IsGreatest {i | excess (tokens.drop i) < 0} i) : IsUnclosed tokens i := by
  have hneg : excess (tokens.drop i) < 0 := h.1
  have hbehind : ∀ n, 0 < n → 0 ≤ excess (tokens.drop (i + n)) := fun n hn => by
    by_contra hlt
    have : i + n ≤ i := h.2 (Int.not_le.mp hlt)
    omega
  -- the token itself is what makes the count negative, so it opens
  have hrest := hbehind 1 Nat.one_pos
  have hwhole := Token.excess_cons tokens[i] (tokens.drop (i + 1))
  rw [← List.drop_eq_getElem_cons hi] at hwhole
  rcases Token.excess_singleton tokens[i] with ⟨hk, hone⟩ | ⟨_, hone⟩ | hzero
  · refine ⟨⟨tokens[i], List.getElem?_eq_getElem hi, hk⟩, fun n hn => ?_⟩
    have hsplit := Token.excess_append ((tokens.drop i).take n) ((tokens.drop i).drop n)
    rw [List.take_append_drop, List.drop_drop] at hsplit
    have := hbehind n hn
    omega
  · omega
  · omega

theorem isUnopened_of_isLeast {tokens : List Token} {j : Nat} (hj : j < tokens.length)
    (h : IsLeast {j | 0 < excess (tokens.take (j + 1))} j) : IsUnopened tokens j := by
  have hpos : 0 < excess (tokens.take (j + 1)) := h.1
  have hbefore : ∀ n, n ≤ j → excess (tokens.take n) ≤ 0 := fun n hn => by
    cases n with
    | zero => exact Int.le_refl 0
    | succ n =>
      by_contra hlt
      have : j ≤ n := h.2 (Int.not_le.mp hlt)
      omega
  -- the token itself is what makes the count positive, so it closes
  have hrest := hbefore j (Nat.le_refl j)
  have hwhole := Token.excess_append (tokens.take j) [tokens[j]]
  rw [← List.take_succ_eq_append_getElem hj] at hwhole
  rcases Token.excess_singleton tokens[j] with ⟨_, hone⟩ | ⟨hk, hone⟩ | hzero
  · omega
  · refine ⟨⟨tokens[j], List.getElem?_eq_getElem hj, hk⟩, fun n hn => ?_⟩
    have hsplit := Token.excess_append ((tokens.take (j + 1)).take n) ((tokens.take (j + 1)).drop n)
    rw [List.take_append_drop, List.take_take, Nat.min_eq_left (Nat.le_succ_of_le hn)] at hsplit
    have := hbefore n hn
    omega
  · omega

theorem exists_tell_iff {limit : Nat} {summary : Text} {tokens : List Token} {index : Nat} :
    (∃ told, tell limit summary tokens index = .ok told) ↔ Writable limit tokens := by
  constructor
  · rintro ⟨told, h⟩
    by_contra hwide
    cases (tell_of_not_writable hwide summary index).symm.trans h
  · intro h
    exact ⟨_, tell_of_writable h summary index⟩

theorem caretUnder_tell {limit : Nat} {summary told : Text} {tokens : List Token} {index : Nat}
    {t : Token} (ht : tokens[index]? = some t) (hk : t.kind ≠ .blank)
    (h : tell limit summary tokens index = .ok told) : CaretUnder told tokens index t.text := by
  cases (tell_of_writable (exists_tell_iff.mp ⟨told, h⟩) summary index).symm.trans h
  exact caretUnder_report summary ht hk

end Polish
end WordCalc
