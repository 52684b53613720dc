import WordCalc.Proofs.Scanning

/-!
# Balance

The token lists that have Polish notation are the balanced ones.  `Closes` is the
invariant: the tokens behind a point of the scan are one stretch of items more than
there are closing brackets waiting.
-/

namespace WordCalc

open Token

namespace Consists

theorem visible {tokens : List Token} {items : List Item} (h : Consists tokens items) :
    Consists (visible tokens) items := by
  induction h with
  | nil => exact .nil
  | blank hk _ ih => rwa [visible_cons_blank hk]
  | number hn _ ih =>
    rw [visible_cons (kind_ne_blank_of_survives (survives_of_isNumber hn))]
    exact .number hn ih
  | operator hop _ ih =>
    rw [visible_cons (kind_ne_blank_of_survives (survives_of_operation? hop))]
    exact .operator hop ih
  | @group o c inner tokens _ _ ho hc _ _ ihinner ihrest =>
    have hrest : Token.visible (inner ++ c :: tokens) =
        Token.visible inner ++ c :: Token.visible tokens := by
      rw [← visible_cons (by rw [hc]; decide)]
      exact List.filter_append _ _
    rw [visible_cons (by rw [ho]; decide), hrest]
    exact .group ho hc ihinner ihrest

theorem of_blanks {blanks tokens : List Token} {items : List Item}
    (hb : ∀ t ∈ blanks, ¬ (t.kind != .blank) = true) (h : Consists tokens items) :
    Consists (blanks ++ tokens) items := by
  induction blanks with
  | nil => exact h
  | cons t rest ih =>
    obtain ⟨ht, hrest⟩ := List.forall_mem_cons.mp hb
    exact .blank (by simpa using ht) (ih hrest)

theorem of_visible {tokens : List Token} {items : List Item}
    (h : Consists (Token.visible tokens) items) : Consists tokens items := by
  generalize hv : Token.visible tokens = shown at h
  induction h generalizing tokens with
  | nil =>
    have hb : ∀ t ∈ tokens, ¬ (t.kind != .blank) = true := List.filter_eq_nil_iff.mp hv
    have := of_blanks hb .nil
    rwa [List.append_nil] at this
  | blank hk _ _ =>
    obtain ⟨_, _, _, _, hvis, _⟩ := List.filter_eq_cons_iff.mp hv
    rw [hk] at hvis
    cases hvis
  | number hn _ ih =>
    obtain ⟨_, _, rfl, hb, _, hrest⟩ := List.filter_eq_cons_iff.mp hv
    exact of_blanks hb (.number hn (ih hrest))
  | operator hop _ ih =>
    obtain ⟨_, _, rfl, hb, _, hrest⟩ := List.filter_eq_cons_iff.mp hv
    exact of_blanks hb (.operator hop (ih hrest))
  | group ho hc _ _ ihinner ihrest =>
    obtain ⟨_, _, rfl, hb, _, hrest⟩ := List.filter_eq_cons_iff.mp hv
    obtain ⟨front, _, rfl, hinner, htail⟩ := List.filter_eq_append_iff.mp hrest
    obtain ⟨gap, _, rfl, hgap, _, hrest⟩ := List.filter_eq_cons_iff.mp htail
    -- blanks before the closing bracket belong to the content
    have hcontent : Token.visible (front ++ gap) = Token.visible front := by
      rw [Token.visible, List.filter_append, List.filter_eq_nil_iff.mpr hgap, List.append_nil]
      rfl
    have hgroup := group ho hc (ihinner (hcontent.trans hinner)) (ihrest hrest)
    rw [List.append_assoc] at hgroup
    exact of_blanks hb hgroup

end Consists

namespace Polish

/-! ## From the scan to the items -/

/-- A list in which every opening bracket is closed and `n` closing brackets are
left over. -/
inductive Closes : Nat → List Token → Prop
  | consists {tokens : List Token} {items : List Item} : Consists tokens items → Closes 0 tokens
  | close {tokens rest : List Token} {items : List Item} {c : Token} {n : Nat} :
    Consists tokens items → c.kind = .bracketClose → Closes n rest →
      Closes (n + 1) (tokens ++ c :: rest)

namespace Closes

/-- A token that may stand in front of any balanced list. -/
theorem cons_of_consists {t : Token}
    (ht : ∀ {tokens items}, Consists tokens items → ∃ items', Consists (t :: tokens) items')
    {n : Nat} {tokens : List Token} (h : Closes n tokens) : Closes n (t :: tokens) := by
  cases h with
  | consists h =>
    obtain ⟨_, h'⟩ := ht h
    exact .consists h'
  | close h hc hrest =>
    obtain ⟨_, h'⟩ := ht h
    exact .close h' hc hrest

/-- An opening bracket takes the first of the closing ones that are left. -/
theorem cons_open {o : Token} (ho : o.kind = .bracketOpen) {n : Nat} {tokens : List Token}
    (h : Closes (n + 1) tokens) : Closes n (o :: tokens) := by
  cases h with
  | close h hc hrest =>
    cases hrest with
    | consists hrest => exact .consists (.group ho hc h hrest)
    | close hb hc' hrest =>
      have := close (.group ho hc h hb) hc' hrest
      rwa [List.cons_append, List.append_assoc, List.cons_append] at this

end Closes

/-- How many closing brackets wait. -/
def Scan.markers (s : Scan) : Nat := s.waiting.countP Waiting.isBracket

/-- An operator passes no bracket, so the brackets that wait stay. -/
theorem filter_release_displaced (t : Token) (s : Scan) :
    (s.release (displaced t)).waiting.filter Waiting.isBracket =
      s.waiting.filter Waiting.isBracket := by
  have hgone : (s.waiting.takeWhile (displaced t)).filter Waiting.isBracket = [] := by
    rw [List.filter_eq_nil_iff]
    intro w hw hbracket
    have hd : displaced t w = true := List.mem_takeWhile_imp hw
    rw [displaced_of_isBracket t hbracket] at hd
    cases hd
  have hsplit := congrArg (List.filter Waiting.isBracket)
    (List.takeWhile_append_dropWhile (p := displaced t) (l := s.waiting))
  rw [List.filter_append, hgone, List.nil_append] at hsplit
  exact hsplit

theorem filter_of_waiting {s : Scan} {above outer : List Waiting} {w : Waiting}
    (hs : s.waiting = above ++ w :: outer) (habove : ∀ v ∈ above, v.isBracket = false)
    (hw : w.isBracket = true) :
    s.waiting.filter Waiting.isBracket = w :: outer.filter Waiting.isBracket := by
  have hnone : above.filter Waiting.isBracket = [] :=
    List.filter_eq_nil_iff.mpr fun v hv => Bool.eq_false_iff.mp (habove v hv)
  rw [hs, List.filter_append, hnone, List.nil_append, List.filter_cons_of_pos hw]

theorem markers_release_displaced (t : Token) (s : Scan) :
    (s.release (displaced t)).markers = s.markers := by
  rw [Scan.markers, Scan.markers, List.countP_eq_length_filter, List.countP_eq_length_filter,
    filter_release_displaced]

theorem markers_hold_close {t : Token} (h : t.kind = .bracketClose) (i : Nat) (s : Scan) :
    (s.hold i t).markers = s.markers + 1 :=
  List.countP_cons_of_pos (p := Waiting.isBracket) (beq_iff_eq.mpr h)

theorem markers_hold_operator {t : Token} {op : Operation} (h : t.operation? = some op) (i : Nat)
    (s : Scan) : (s.hold i t).markers = s.markers := by
  have hw : Waiting.Holds (fun _ => true) ⟨i, t⟩ := ⟨op, h, rfl⟩
  exact List.countP_cons_of_neg (p := Waiting.isBracket) (by rw [hw.isBracket]; decide)

theorem markers_of_waiting {s : Scan} {above outer : List Waiting} {w : Waiting}
    (hs : s.waiting = above ++ w :: outer) (habove : ∀ v ∈ above, v.isBracket = false)
    (hw : w.isBracket = true) : s.markers = outer.countP Waiting.isBracket + 1 := by
  rw [Scan.markers, List.countP_eq_length_filter, filter_of_waiting hs habove hw,
    List.length_cons, List.countP_eq_length_filter]

theorem closes_step {i : Nat} {t : Token} {s r : Scan} {rest : List Token}
    (h : step i t s = .ok r) (hs : Closes s.markers rest) : Closes r.markers (t :: rest) := by
  rcases step_cases h with ⟨hn, rfl⟩ | ⟨hk, rfl⟩ | ⟨hc, rfl⟩ | ⟨op, hop, rfl⟩ |
    ⟨ho, above, w, outer, hw, habove, hbracket, rfl⟩
  · exact hs.cons_of_consists fun h => ⟨_, .number hn h⟩
  · exact hs.cons_of_consists fun h => ⟨_, .blank hk h⟩
  · rw [markers_hold_close hc]
    exact .close .nil hc hs
  · rw [markers_hold_operator hop, markers_release_displaced]
    exact hs.cons_of_consists fun h => ⟨_, .operator hop h⟩
  · rw [markers_of_waiting hw habove hbracket] at hs
    exact hs.cons_open ho

/-- A scan that is still going has one closing bracket waiting for each that is
left over. -/
theorem closes_scan {i : Nat} {tokens : List Token} {s : Scan} (h : scan i tokens = .ok s) :
    Closes s.markers tokens := by
  induction tokens generalizing i s with
  | nil =>
    cases h
    exact .consists .nil
  | cons t rest ih =>
    obtain ⟨before, hb, hstep⟩ := Outcome.bind_eq_ok_iff.mp h
    exact closes_step hstep (ih hb)

theorem finish_eq_ok_iff {s : Scan} {output : List Token} :
    finish s = .ok output ↔ (∀ w ∈ s.waiting, w.isBracket = false) ∧
      output = (s.waiting.map Waiting.token).reverse ++ s.output := by
  constructor
  · intro h
    have hnone : ∀ w ∈ s.waiting, w.isBracket = false := by
      intro w hw
      unfold finish at h
      split at h
      · cases h
      · next hfind => exact Bool.eq_false_iff.mpr (List.find?_eq_none.mp hfind w hw)
    rw [finish_of_forall hnone] at h
    exact ⟨hnone, (Except.ok.inj h).symm⟩
  · rintro ⟨hnone, rfl⟩
    exact finish_of_forall hnone

theorem ofTokens_eq_ok {tokens : List Token} {p : Polish} (h : ofTokens tokens = .ok p) :
    ∃ s, scan 0 tokens = .ok s ∧ finish s = .ok p.tokens := by
  unfold ofTokens at h
  split at h
  · next output hbind =>
    cases h
    exact Outcome.bind_eq_ok_iff.mp hbind
  · cases h

theorem exists_consists {tokens : List Token} {p : Polish} (h : ofTokens tokens = .ok p) :
    ∃ items, Consists tokens items := by
  obtain ⟨s, hs, hf⟩ := ofTokens_eq_ok h
  have hnone := (finish_eq_ok_iff.mp hf).1
  have hmarkers : s.markers = 0 :=
    List.countP_eq_zero.mpr fun w hw => Bool.eq_false_iff.mp (hnone w hw)
  have hcloses := closes_scan hs
  rw [hmarkers] at hcloses
  cases hcloses with
  | consists h => exact ⟨_, h⟩

/-- Exactly the balanced lists have Polish notation, and it is the one by
splitting. -/
theorem ofTokens_eq_ok_iff {tokens : List Token} {p : Polish} :
    ofTokens tokens = .ok p ↔
      ∃ items, Consists (visible tokens) items ∧ p = ⟨Item.polish items⟩ := by
  constructor
  · intro h
    obtain ⟨items, hitems⟩ := exists_consists h
    refine ⟨items, hitems.visible, ?_⟩
    rw [ofTokens_of_consists hitems] at h
    exact (Except.ok.inj h).symm
  · rintro ⟨items, hitems, rfl⟩
    exact ofTokens_of_consists hitems.of_visible

end Polish
end WordCalc
