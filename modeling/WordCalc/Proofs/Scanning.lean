import Mathlib.Data.List.TakeWhile
import WordCalc.Proofs.Grouping

/-!
# Scanning

The scan agrees with the arrangement by splitting.  `Extends` is the invariant: above
what waited before stand the multiplicative operators of the first segment and below
them the additive ones.  A balanced list can stand anywhere, so the state it is read
in need only be `Sealed`.
-/

namespace WordCalc.Polish

/-- The state after tokens of which the first has index `i`, when what is behind
them has led to the state `s`. -/
def resume (i : Nat) (s : Scan) : List Token → Except Unmatched Scan
  | [] => .ok s
  | t :: rest => (resume (i + 1) s rest).bind (step i t)

theorem scan_eq_resume (i : Nat) (tokens : List Token) : scan i tokens = resume i .empty tokens := by
  induction tokens generalizing i with
  | nil => rfl
  | cons t rest ih => rw [scan, resume, ih]

theorem resume_append (i : Nat) (s : Scan) (a b : List Token) :
    resume i s (a ++ b) = (resume (i + a.length) s b).bind fun r => resume i r a := by
  induction a generalizing i with
  | nil =>
    rw [List.nil_append, List.length_nil, Nat.add_zero]
    cases resume i s b <;> rfl
  | cons t rest ih =>
    have hlen : i + (t :: rest).length = i + 1 + rest.length := by
      rw [List.length_cons]
      omega
    rw [List.cons_append, resume, ih, hlen, Outcome.bind_assoc]
    rfl

/-! ## Single steps -/

theorem step_number {t : Token} (h : t.isNumber = true) (i : Nat) (s : Scan) :
    step i t s = .ok { s with output := t :: s.output } := by
  have hk : t.kind = .number := beq_iff_eq.mp h
  rw [step, hk]

theorem step_blank {t : Token} (h : t.kind = .blank) (i : Nat) (s : Scan) : step i t s = .ok s := by
  rw [step, h]

theorem step_close {t : Token} (h : t.kind = .bracketClose) (i : Nat) (s : Scan) :
    step i t s = .ok (s.hold i t) := by
  rw [step, h]

theorem step_operator {t : Token} {op : Operation} (h : t.operation? = some op) (i : Nat)
    (s : Scan) : step i t s = .ok ((s.release (displaced t)).hold i t) := by
  obtain ⟨kind, value⟩ := t
  cases kind with
  | plus | minus | star | slash => rfl
  | _ => cases h

theorem release_append {p : Waiting → Bool} {above below : List Waiting} {output : List Token}
    (ha : ∀ w ∈ above, p w = true) (hb : ∀ w ∈ below.head?, p w = false) :
    Scan.release p { waiting := above ++ below, output } =
      { waiting := below, output := (above.map Waiting.token).reverse ++ output } := by
  have htake : below.takeWhile p = [] ∧ below.dropWhile p = below := by
    cases below with
    | nil => exact ⟨rfl, rfl⟩
    | cons w rest =>
      have hw : p w = false := hb w rfl
      exact ⟨by rw [List.takeWhile_cons, hw]; rfl, by rw [List.dropWhile_cons, hw]; rfl⟩
  rw [Scan.release, List.takeWhile_append_of_pos ha, List.dropWhile_append_of_pos ha, htake.1,
    htake.2, List.append_nil]

/-- An opening bracket takes everything above the bracket that it belongs to. -/
theorem step_open {t : Token} (h : t.kind = .bracketOpen) (i : Nat) {above outer : List Waiting}
    {w : Waiting} {output : List Token} (ha : ∀ v ∈ above, v.isBracket = false)
    (hw : w.isBracket = true) :
    step i t { waiting := above ++ w :: outer, output } =
      .ok { waiting := outer, output := (above.map Waiting.token).reverse ++ output } := by
  have habove : ∀ v ∈ above, (!v.isBracket) = true := fun v hv => by rw [ha v hv]; rfl
  have hbelow : ∀ v ∈ (w :: outer).head?, (!v.isBracket) = false := by
    intro v hv
    cases hv
    rw [hw]
    rfl
  have hrelease := @release_append (fun v => !v.isBracket) above (w :: outer) output habove hbelow
  rw [step, h]
  simp only [hrelease]

theorem eq_or_exists_bracket (waiting : List Waiting) :
    (∀ w ∈ waiting, w.isBracket = false) ∨ ∃ above w outer, waiting = above ++ w :: outer ∧
      (∀ v ∈ above, v.isBracket = false) ∧ w.isBracket = true := by
  induction waiting with
  | nil => exact .inl (List.forall_mem_nil _)
  | cons v rest ih =>
    by_cases hv : v.isBracket = true
    · exact .inr ⟨[], v, rest, rfl, List.forall_mem_nil _, hv⟩
    · have hv : v.isBracket = false := Bool.eq_false_iff.mpr hv
      rcases ih with hnone | ⟨above, w, outer, rfl, habove, hw⟩
      · exact .inl (List.forall_mem_cons.mpr ⟨hv, hnone⟩)
      · exact .inr ⟨v :: above, w, outer, rfl, List.forall_mem_cons.mpr ⟨hv, habove⟩, hw⟩

/-- An opening bracket needs one that waits. -/
theorem step_open_of_none {t : Token} (h : t.kind = .bracketOpen) (i : Nat) {s : Scan}
    (hs : ∀ w ∈ s.waiting, w.isBracket = false) : step i t s = .error ⟨.unclosed, i⟩ := by
  have hnone : s.waiting.dropWhile (fun v => !v.isBracket) = [] :=
    List.dropWhile_eq_nil_iff.mpr fun w hw => by rw [hs w hw]; rfl
  rw [step, h]
  simp only [Scan.release, hnone]

/-- All that a step can do. -/
theorem step_cases {i : Nat} {t : Token} {s r : Scan} (h : step i t s = .ok r) :
    (t.isNumber = true ∧ r = { s with output := t :: s.output }) ∨
    (t.kind = .blank ∧ r = s) ∨
    (t.kind = .bracketClose ∧ r = s.hold i t) ∨
    (∃ op, t.operation? = some op ∧ r = (s.release (displaced t)).hold i t) ∨
    (t.kind = .bracketOpen ∧ ∃ above w outer, s.waiting = above ++ w :: outer ∧
      (∀ v ∈ above, v.isBracket = false) ∧ w.isBracket = true ∧
      r = { waiting := outer, output := (above.map Waiting.token).reverse ++ s.output }) := by
  obtain ⟨kind, value⟩ := t
  cases kind with
  | number => exact .inl ⟨rfl, (Except.ok.inj h).symm⟩
  | blank => exact .inr (.inl ⟨rfl, (Except.ok.inj h).symm⟩)
  | bracketClose => exact .inr (.inr (.inl ⟨rfl, (Except.ok.inj h).symm⟩))
  | plus => exact .inr (.inr (.inr (.inl ⟨.add, rfl, (Except.ok.inj h).symm⟩)))
  | minus => exact .inr (.inr (.inr (.inl ⟨.sub, rfl, (Except.ok.inj h).symm⟩)))
  | star => exact .inr (.inr (.inr (.inl ⟨.mul, rfl, (Except.ok.inj h).symm⟩)))
  | slash => exact .inr (.inr (.inr (.inl ⟨.div, rfl, (Except.ok.inj h).symm⟩)))
  | bracketOpen =>
    refine .inr (.inr (.inr (.inr ⟨rfl, ?_⟩)))
    rcases eq_or_exists_bracket s.waiting with hnone | ⟨above, w, outer, hw, habove, hbracket⟩
    · rw [step_open_of_none rfl i hnone] at h
      cases h
    · obtain ⟨waiting, output⟩ := s
      simp only at hw
      subst hw
      rw [step_open rfl i habove hbracket] at h
      exact ⟨above, w, outer, rfl, habove, hbracket, (Except.ok.inj h).symm⟩

/-! ## What waits -/

/-- An operator of the class. -/
def Waiting.Holds (c : Operation → Bool) (w : Waiting) : Prop :=
  ∃ op, w.token.operation? = some op ∧ c op = true

theorem Waiting.Holds.isBracket {c : Operation → Bool} {w : Waiting} (h : w.Holds c) :
    w.isBracket = false := by
  obtain ⟨op, hop, _⟩ := h
  obtain ⟨i, kind, value⟩ := w
  cases kind with
  | bracketClose => cases hop
  | _ => rfl

/-- Only an additive operator displaces, and only a multiplicative one. -/
theorem displaced_eq {t : Token} {w : Waiting} {a b : Operation} (ha : t.operation? = some a)
    (hb : w.token.operation? = some b) :
    displaced t w = (a.isAdditive && b.isMultiplicative) := by
  have ht : Operator.ofKind? t.kind = some (.ofOperation a) := by
    rw [Operator.ofKind?, show Operation.ofKind? t.kind = some a from ha, Option.map_some]
  have hw : Operator.ofKind? w.token.kind = some (.ofOperation b) := by
    rw [Operator.ofKind?, show Operation.ofKind? w.token.kind = some b from hb, Option.map_some]
  rw [displaced, ht, hw]
  show (Operator.ofOperation a).displaces (.ofOperation b) = _
  rw [Operator.displaces_ofOperation]
  cases a <;> cases b <;> rfl

theorem displaced_of_isBracket (t : Token) {w : Waiting} (h : w.isBracket = true) :
    displaced t w = false := by
  have hk : w.token.kind = .bracketClose := beq_iff_eq.mp h
  have hnone : Operator.ofKind? w.token.kind = none := by rw [hk]; rfl
  rw [displaced, hnone]
  cases Operator.ofKind? t.kind <;> rfl

/-- No operator in front can displace what waits. -/
def Scan.Sealed (s : Scan) : Prop := ∀ w ∈ s.waiting.head?, w.isBracket = true

theorem Scan.sealed_empty : Scan.empty.Sealed := fun w hw => by cases hw

theorem Scan.sealed_hold {t : Token} (h : t.kind = .bracketClose) (i : Nat) (s : Scan) :
    (s.hold i t).Sealed := by
  intro w hw
  cases hw
  exact beq_iff_eq.mpr h

/-- The state `r` is what a balanced list with the layout makes of `s`. -/
structure Extends (s : Scan) (l : Layout) (r : Scan) : Prop where
  waiting : ∃ products sums, r.waiting = products ++ (sums ++ s.waiting) ∧
    products.map Waiting.token = l.products ∧ sums.map Waiting.token = l.sums ∧
    (∀ w ∈ products, w.Holds Operation.isMultiplicative) ∧
    ∀ w ∈ sums, w.Holds Operation.isAdditive
  output : r.output = l.output ++ s.output

namespace Extends

theorem refl (s : Scan) : Extends s .empty s where
  waiting := ⟨[], [], rfl, rfl, rfl, List.forall_mem_nil _, List.forall_mem_nil _⟩
  output := rfl

variable {s r : Scan} {l : Layout}

theorem operand (h : Extends s l r) (tokens : List Token) :
    Extends s (l.operand tokens) { r with output := tokens ++ r.output } where
  waiting := h.waiting
  output := by
    show tokens ++ r.output = tokens ++ l.output ++ s.output
    rw [h.output, List.append_assoc]

theorem product (h : Extends s l r) (hs : s.Sealed) {t : Token} {op : Operation}
    (ht : t.operation? = some op) (hop : op.isMultiplicative = true) (i : Nat) :
    ∃ r', step i t r = .ok r' ∧ Extends s (l.product t) r' := by
  obtain ⟨products, sums, hw, hp, hm, hproducts, hsums⟩ := h.waiting
  have hnadd := Operation.isAdditive_eq_false hop
  -- a multiplicative operator displaces nothing, whatever is on top
  have hkeep : ∀ w ∈ r.waiting.head?, displaced t w = false := by
    intro w hmem
    have hcases : (∃ b, w.token.operation? = some b) ∨ w.isBracket = true := by
      rw [hw] at hmem
      cases products with
      | cons p ps =>
        cases hmem
        obtain ⟨b, hb, _⟩ := hproducts w List.mem_cons_self
        exact .inl ⟨b, hb⟩
      | nil =>
        cases sums with
        | cons q qs =>
          cases hmem
          obtain ⟨b, hb, _⟩ := hsums w List.mem_cons_self
          exact .inl ⟨b, hb⟩
        | nil => exact .inr (hs w hmem)
    rcases hcases with ⟨b, hb⟩ | hb
    · rw [displaced_eq ht hb, hnadd, Bool.false_and]
    · exact displaced_of_isBracket t hb
  have hrelease : r.release (displaced t) = r :=
    @release_append (displaced t) [] r.waiting r.output (List.forall_mem_nil _) hkeep
  refine ⟨r.hold i t, ?_, ⟨⟨⟨i, t⟩ :: products, sums, ?_, ?_, hm, ?_, hsums⟩, h.output⟩⟩
  · rw [step_operator ht, hrelease]
  · rw [Scan.hold, hw]
    rfl
  · rw [List.map_cons, hp]
    rfl
  · exact List.forall_mem_cons.mpr ⟨⟨op, ht, hop⟩, hproducts⟩

theorem sum (h : Extends s l r) (hs : s.Sealed) {t : Token} {op : Operation}
    (ht : t.operation? = some op) (hop : op.isAdditive = true) (i : Nat) :
    ∃ r', step i t r = .ok r' ∧ Extends s (l.sum t) r' := by
  obtain ⟨products, sums, hw, hp, hm, hproducts, hsums⟩ := h.waiting
  have hgo : ∀ w ∈ products, displaced t w = true := by
    intro w hmem
    obtain ⟨b, hb, hmul⟩ := hproducts w hmem
    rw [displaced_eq ht hb, hop, hmul]
    rfl
  have hkeep : ∀ w ∈ (sums ++ s.waiting).head?, displaced t w = false := by
    intro w hmem
    cases sums with
    | cons q qs =>
      cases hmem
      obtain ⟨b, hb, hadd⟩ := hsums w List.mem_cons_self
      rw [displaced_eq ht hb, Operation.isMultiplicative, hadd]
      exact Bool.and_false _
    | nil => exact displaced_of_isBracket t (hs w hmem)
  have hrelease : r.release (displaced t) =
      { waiting := sums ++ s.waiting,
        output := (products.map Waiting.token).reverse ++ r.output } := by
    rw [← release_append hgo hkeep, ← hw]
  refine ⟨_, step_operator ht i r, ⟨⟨[], ⟨i, t⟩ :: sums, ?_, rfl, ?_, List.forall_mem_nil _, ?_⟩, ?_⟩⟩
  · rw [hrelease]
    rfl
  · rw [List.map_cons, hm]
    rfl
  · exact List.forall_mem_cons.mpr ⟨⟨op, ht, hop⟩, hsums⟩
  · rw [hrelease]
    show (products.map Waiting.token).reverse ++ r.output = l.products.reverse ++ l.output ++ s.output
    rw [hp, h.output, List.append_assoc]

theorem operator (h : Extends s l r) (hs : s.Sealed) {t : Token} {op : Operation}
    (ht : t.operation? = some op) (i : Nat) :
    ∃ r', step i t r = .ok r' ∧
      Extends s (if op.isAdditive then l.sum t else l.product t) r' := by
  by_cases hop : op.isAdditive = true
  · rw [if_pos hop]
    exact h.sum hs ht hop i
  · rw [if_neg hop]
    exact h.product hs ht (Operation.isMultiplicative_of_not hop) i

/-- The operators of the list, in the order in which they leave. -/
theorem exists_above (h : Extends s l r) :
    ∃ above, r.waiting = above ++ s.waiting ∧ (∀ w ∈ above, w.isBracket = false) ∧
      (above.map Waiting.token).reverse ++ r.output = l.tokens ++ s.output := by
  obtain ⟨products, sums, hw, hp, hm, hproducts, hsums⟩ := h.waiting
  refine ⟨products ++ sums, ?_, ?_, ?_⟩
  · rw [hw, List.append_assoc]
  · intro w hmem
    rcases List.mem_append.mp hmem with hmem | hmem
    · exact (hproducts w hmem).isBracket
    · exact (hsums w hmem).isBracket
  · rw [List.map_append, hp, hm, h.output, Layout.tokens]
    simp only [List.reverse_append, List.append_assoc]

end Extends

/-- A bracketed group puts out its content, whatever is behind it. -/
theorem resume_group {o c : Token} (ho : o.kind = .bracketOpen) (hc : c.kind = .bracketClose)
    {inner : List Token} {l : Layout}
    (hinner : ∀ i {s : Scan}, s.Sealed → ∃ r, resume i s inner = .ok r ∧ Extends s l r)
    (i : Nat) (s : Scan) :
    resume i s (o :: (inner ++ [c])) = .ok { s with output := l.tokens ++ s.output } := by
  have hclose : resume (i + 1 + inner.length) s [c] = .ok (s.hold (i + 1 + inner.length) c) :=
    step_close hc _ s
  have hbracket : Waiting.isBracket ⟨i + 1 + inner.length, c⟩ = true := beq_iff_eq.mpr hc
  obtain ⟨q, hq, hext⟩ := hinner (i + 1) (Scan.sealed_hold hc (i + 1 + inner.length) s)
  obtain ⟨above, hw, habove, hout⟩ := hext.exists_above
  rw [resume, resume_append, hclose, Outcome.bind_ok, hq, Outcome.bind_ok]
  obtain ⟨waiting, output⟩ := q
  simp only at hw hout
  rw [hw, Scan.hold, step_open ho i habove hbracket, hout]
  rfl

/-- A balanced list in front of anything that seals it off. -/
theorem resume_consists {tokens : List Token} {items : List Item} (h : Consists tokens items)
    (i : Nat) {s : Scan} (hs : s.Sealed) :
    ∃ r, resume i s tokens = .ok r ∧ Extends s (Layout.ofPieces (Item.pieces items)) r := by
  induction h generalizing i s with
  | nil => exact ⟨s, rfl, .refl s⟩
  | blank hk _ ih =>
    obtain ⟨r, hr, hext⟩ := ih (i + 1) hs
    exact ⟨r, by rw [resume, hr, Outcome.bind_ok, step_blank hk], hext⟩
  | @number t _ _ hn _ ih =>
    obtain ⟨r, hr, hext⟩ := ih (i + 1) hs
    exact ⟨_, by rw [resume, hr, Outcome.bind_ok, step_number hn]; rfl, hext.operand [t]⟩
  | operator hop _ ih =>
    obtain ⟨r, hr, hext⟩ := ih (i + 1) hs
    obtain ⟨r', hr', hext'⟩ := hext.operator hs hop i
    exact ⟨r', by rw [resume, hr, Outcome.bind_ok, hr'], hext'⟩
  | @group o c inner tokens content items ho hc _ _ ihinner ihrest =>
    have hsplit : o :: (inner ++ c :: tokens) = (o :: (inner ++ [c])) ++ tokens := by
      rw [List.cons_append, List.append_assoc, List.singleton_append]
    obtain ⟨r, hr, hext⟩ := ihrest (i + (o :: (inner ++ [c])).length) hs
    refine ⟨_, ?_, hext.operand (Piece.arrange (Item.pieces content))⟩
    rw [hsplit, resume_append, hr, Outcome.bind_ok, resume_group ho hc ihinner,
      Piece.arrange_eq_layout]

theorem finish_of_forall {s : Scan} (h : ∀ w ∈ s.waiting, w.isBracket = false) :
    finish s = .ok ((s.waiting.map Waiting.token).reverse ++ s.output) := by
  have hnone : s.waiting.find? Waiting.isBracket = none :=
    List.find?_eq_none.mpr fun w hw => Bool.eq_false_iff.mp (h w hw)
  have hall : s.release (fun _ => true) =
      { waiting := [], output := (s.waiting.map Waiting.token).reverse ++ s.output } := by
    have := @release_append (fun _ => true) s.waiting [] s.output (fun _ _ => rfl)
      fun w hw => by cases hw
    rwa [List.append_nil] at this
  rw [finish, hnone, hall]

theorem ofTokens_of_scan {tokens : List Token} {s : Scan} {output : List Token}
    (hs : scan 0 tokens = .ok s) (hf : finish s = .ok output) :
    ofTokens tokens = .ok ⟨output⟩ := by
  rw [ofTokens, hs, Outcome.bind_ok, hf]

theorem ofTokens_of_consists {tokens : List Token} {items : List Item}
    (h : Consists tokens items) : ofTokens tokens = .ok ⟨Item.polish items⟩ := by
  obtain ⟨r, hr, hext⟩ := resume_consists h 0 Scan.sealed_empty
  obtain ⟨above, hw, habove, hout⟩ := hext.exists_above
  have hwaiting : r.waiting = above := hw.trans (List.append_nil above)
  rw [← hwaiting] at habove hout
  have hfinish := finish_of_forall habove
  rw [hout, ← Piece.arrange_eq_layout] at hfinish
  refine ofTokens_of_scan ((scan_eq_resume 0 tokens).trans hr) (hfinish.trans ?_)
  exact congrArg Except.ok (List.append_nil _)

end WordCalc.Polish
