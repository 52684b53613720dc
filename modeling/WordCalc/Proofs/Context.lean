import WordCalc.Proofs.Conservation
import WordCalc.Proofs.Unmatched

/-!
# Operands in context

What a scan makes of the tokens around a stretch that only puts tokens out does not
depend on the stretch, since a scan asks nothing of its output and of the indices on
its stack (`step_embed`).  So a group stands in its place as a number does.
-/

namespace WordCalc.Polish

open Token

/-! ## Other indices and more output -/

def Waiting.rename (φ : Nat → Nat) (w : Waiting) : Waiting := { w with index := φ w.index }

def Unmatched.rename (φ : Nat → Nat) (u : Unmatched) : Unmatched := { u with index := φ u.index }

/-- The state with other indices on the stack and more behind the output. -/
def Scan.embed (φ : Nat → Nat) (behind : List Token) (s : Scan) : Scan where
  waiting := s.waiting.map (Waiting.rename φ)
  output := s.output ++ behind

section Embed

variable {φ : Nat → Nat} {behind : List Token}

theorem Scan.release_embed {p : Waiting → Bool} (hp : ∀ w, p (w.rename φ) = p w) (s : Scan) :
    (s.embed φ behind).release p = (s.release p).embed φ behind := by
  have hcomp : p ∘ Waiting.rename φ = p := funext hp
  have htoken : Waiting.token ∘ Waiting.rename φ = Waiting.token := rfl
  simp only [Scan.release, Scan.embed, List.takeWhile_map, List.dropWhile_map, List.map_map,
    hcomp, htoken, List.append_assoc]

theorem step_embed (i : Nat) (t : Token) (s : Scan) :
    step (φ i) t (s.embed φ behind) =
      ((step i t s).mapError (Unmatched.rename φ)).map (Scan.embed φ behind) := by
  obtain ⟨kind, value⟩ := t
  cases kind with
  | number | blank | bracketClose => rfl
  | plus | minus | star | slash =>
    simp only [step, Scan.release_embed (p := displaced _) fun _ => rfl]
    rfl
  | bracketOpen =>
    simp only [step, Scan.release_embed (p := fun w => !w.isBracket) fun _ => rfl]
    generalize s.release _ = released
    obtain ⟨waiting, output⟩ := released
    cases waiting <;> rfl

theorem resume_embed {i j : Nat} {tokens : List Token}
    (h : ∀ k < tokens.length, φ (i + k) = j + k) (s : Scan) :
    resume j (s.embed φ behind) tokens =
      ((resume i s tokens).mapError (Unmatched.rename φ)).map (Scan.embed φ behind) := by
  induction tokens generalizing i j with
  | nil => rfl
  | cons t rest ih =>
    have hfirst : φ i = j := h 0 (Nat.succ_pos _)
    have hrest : ∀ k < rest.length, φ (i + 1 + k) = j + 1 + k := by
      intro k hk
      have := h (k + 1) (Nat.succ_lt_succ hk)
      rwa [Nat.add_assoc, Nat.add_comm 1 k, Nat.add_assoc, Nat.add_comm 1 k]
    rw [resume, resume, ih hrest]
    cases resume (i + 1) s rest with
    | error u => rfl
    | ok r =>
      rw [← hfirst]
      exact step_embed i t r

theorem finish_embed (s : Scan) :
    finish (s.embed φ behind) =
      ((finish s).mapError (Unmatched.rename φ)).map (· ++ behind) := by
  have hcomp : Waiting.isBracket ∘ Waiting.rename φ = Waiting.isBracket := rfl
  have hfind : (s.embed φ behind).waiting.find? Waiting.isBracket =
      (s.waiting.find? Waiting.isBracket).map (Waiting.rename φ) := by
    rw [Scan.embed, List.find?_map, hcomp]
  rw [finish, finish, hfind]
  cases s.waiting.find? Waiting.isBracket with
  | some w => rfl
  | none =>
    simp only [Option.map_none, Scan.release_embed (p := fun _ => true) fun _ => rfl]
    rfl

end Embed

/-! ## Stretches that only put out -/

/-- Wherever the tokens stand, they put out these others and do nothing else. -/
def PutsOut (tokens out : List Token) : Prop :=
  ∀ i s, resume i s tokens = .ok { s with output := out ++ s.output }

theorem putsOut_nil : PutsOut [] [] := fun _ _ => rfl

theorem putsOut_number {t : Token} (h : t.isNumber = true) : PutsOut [t] [t] :=
  fun i s => step_number h i s

theorem putsOut_blank {t : Token} (h : t.kind = .blank) : PutsOut [t] [] :=
  fun i s => step_blank h i s

theorem putsOut_group {o c : Token} (ho : o.kind = .bracketOpen) (hc : c.kind = .bracketClose)
    {inner : List Token} {content : List Item} (h : Consists inner content) :
    PutsOut (o :: (inner ++ [c])) (Item.polish content) := by
  intro i s
  rw [Item.polish, Piece.arrange_eq_layout]
  exact resume_group ho hc (fun i _ hs => resume_consists h i hs) i s

/-- The index of a token once `length` others have been put in at `start`. -/
def widen (start length index : Nat) : Nat := if index < start then index else index + length

section Around

variable {before after tokens out : List Token}

theorem widen_of_lt {start length index : Nat} (h : index < start) :
    widen start length index = index := if_pos h

theorem widen_zero (start index : Nat) : widen start 0 index = index := ite_self index

theorem widen_add (start length k : Nat) :
    widen start length (start + k) = start + length + k := by
  rw [widen, if_neg (by omega)]
  omega

/-- An index with one token put in tells where it is with more put in. -/
theorem widen_add_one (start length index : Nat) :
    widen start (length + 1) index =
      if widen start 1 index < start then widen start 1 index
      else widen start 1 index + length := by
  by_cases h : index < start
  · rw [widen_of_lt h, widen_of_lt h, if_pos h]
  · obtain ⟨k, rfl⟩ := Nat.exists_eq_add_of_le (Nat.not_lt.mp h)
    rw [widen_add, widen_add, if_neg (by omega)]
    omega

/-- What the tokens around a stretch come to, the stretch left out: the output
in front of what it puts out and the output behind it. -/
def around (before after : List Token) : Except Unmatched (List Token × List Token) :=
  (resume before.length .empty after).bind fun r =>
    (resume 0 { r with output := [] } before).bind fun s =>
      (finish s).map fun front => (front, r.output)

theorem scan_finish_around (h : PutsOut tokens out) (before after : List Token) :
    (scan 0 (before ++ (tokens ++ after))).bind finish =
      ((around before after).mapError (Unmatched.rename (widen before.length tokens.length))).map
        fun place => place.1 ++ (out ++ place.2) := by
  have hbefore : ∀ k < before.length, widen before.length tokens.length (0 + k) = 0 + k := by
    intro k hk
    exact widen_of_lt (by omega)
  have hafter : ∀ k < after.length, widen before.length tokens.length (before.length + k) =
      before.length + tokens.length + k := fun k _ => widen_add before.length tokens.length k
  generalize widen before.length tokens.length = φ at hbefore hafter ⊢
  have hbehind : resume (before.length + tokens.length) .empty after =
      ((resume before.length .empty after).mapError (Unmatched.rename φ)).map (Scan.embed φ []) :=
    resume_embed hafter .empty
  rw [scan_eq_resume, resume_append, Nat.zero_add, resume_append, hbehind, around]
  cases resume before.length .empty after with
  | error u => rfl
  | ok r =>
    -- What stands behind the stretch goes on only with its stack, and what the
    -- two have put out is more output behind.
    have hstate : { r.embed φ [] with output := out ++ (r.embed φ []).output } =
        Scan.embed φ (out ++ r.output) { r with output := [] } := by
      simp only [Scan.embed, List.append_nil, List.nil_append]
    simp only [Outcome.mapError_ok, Outcome.map_ok, Outcome.bind_ok]
    rw [h, Outcome.bind_ok, hstate, resume_embed hbefore]
    cases resume 0 { r with output := [] } before with
    | error u => rfl
    | ok s =>
      simp only [Outcome.mapError_ok, Outcome.map_ok, Outcome.bind_ok]
      rw [finish_embed]
      cases finish s <;> rfl

end Around

/-- The tokens around a stretch that only puts out have a place for it, or a
bracket of theirs is refused, and which of the two it is holds for all such
stretches. -/
theorem ofTokens_around (before after : List Token) :
    (∃ front back, ∀ tokens out, PutsOut tokens out →
      ofTokens (before ++ (tokens ++ after)) = .ok ⟨front ++ (out ++ back)⟩) ∨
    ∃ cause index, ∀ tokens out, PutsOut tokens out →
      ofTokens (before ++ (tokens ++ after)) =
        .error ⟨⟨cause, widen before.length tokens.length index⟩,
          before ++ (tokens ++ after)⟩ := by
  cases h : around before after with
  | error u =>
    refine .inr ⟨u.cause, u.index, fun tokens out hout => ?_⟩
    rw [ofTokens, scan_finish_around hout, h]
    rfl
  | ok place =>
    refine .inl ⟨place.1, place.2, fun tokens out hout => ?_⟩
    rw [ofTokens, scan_finish_around hout, h]
    rfl

/-! ## A group in the place of a number -/

/-- The tokens with `out` in the place of each `n`. -/
def substitute (n : Token) (out tokens : List Token) : List Token :=
  tokens.flatMap fun t => if t = n then out else [t]

theorem substitute_of_notMem {n : Token} {tokens : List Token} (h : n ∉ tokens)
    (out : List Token) : substitute n out tokens = tokens := by
  induction tokens with
  | nil => rfl
  | cons t rest ih =>
    have ht : t ≠ n := fun heq => h (heq ▸ List.mem_cons_self)
    have hrest : n ∉ rest := fun hmem => h (List.mem_cons_of_mem t hmem)
    rw [substitute, List.flatMap_cons, if_neg ht]
    exact congrArg (t :: ·) (ih hrest)

theorem substitute_append_cons {n : Token} {front back : List Token} (hfront : n ∉ front)
    (hback : n ∉ back) (out : List Token) :
    substitute n out (front ++ n :: back) = front ++ (out ++ back) := by
  have hf := substitute_of_notMem hfront out
  have hb := substitute_of_notMem hback out
  unfold substitute at *
  rw [List.flatMap_append, List.flatMap_cons, if_pos rfl, hf, hb]

section Number

variable {before after tokens out : List Token} {n : Token} (hn : n.isNumber = true)
  (h : PutsOut tokens out)

include hn h

/-- What a stretch puts out takes the place that a number would have had. -/
theorem ofTokens_eq_substitute_iff (hbefore : n ∉ before) (hafter : n ∉ after) (r : Polish) :
    ofTokens (before ++ (tokens ++ after)) = .ok r ↔
      ∃ p, ofTokens (before ++ n :: after) = .ok p ∧ r = ⟨substitute n out p.tokens⟩ := by
  rcases ofTokens_around before after with ⟨front, back, hplace⟩ | ⟨cause, index, hrefused⟩
  · have hnumber : ofTokens (before ++ n :: after) = .ok ⟨front ++ n :: back⟩ :=
      hplace [n] [n] (putsOut_number hn)
    have hnone : n ∉ front ++ back := by
      intro hmem
      have := List.mem_of_mem_filter ((ofTokens_perm (hplace [] [] putsOut_nil)).subset hmem)
      exact (List.mem_append.mp this).elim hbefore hafter
    rw [List.mem_append, not_or] at hnone
    rw [hplace tokens out h, hnumber]
    simp only [Except.ok.injEq, exists_eq_left', substitute_append_cons hnone.1 hnone.2]
    exact eq_comm
  · have hnumber : ofTokens (before ++ n :: after) =
        .error ⟨⟨cause, widen before.length 1 index⟩, before ++ n :: after⟩ :=
      hrefused [n] [n] (putsOut_number hn)
    rw [hrefused tokens out h, hnumber]
    simp only [reduceCtorEq, false_and, exists_false]

/-- A bracket that is refused around a number is refused around any stretch, and
its index moves on with the length of the stretch if it stands behind. -/
theorem ofTokens_error_of_number {length : Nat} (hlength : tokens.length = length + 1) {f : Fault}
    (hf : ofTokens (before ++ n :: after) = .error f) :
    (f.index < before.length ∨ ∃ k < after.length, f.index = before.length + 1 + k) ∧
      ofTokens (before ++ (tokens ++ after)) = .error {
        cause := f.cause
        index := if f.index < before.length then f.index else f.index + length
        tokens := before ++ (tokens ++ after) } := by
  have hlt := index_lt_of_ofTokens hf
  rcases ofTokens_around before after with ⟨front, back, hplace⟩ | ⟨cause, index, hrefused⟩
  · cases (hplace [n] [n] (putsOut_number hn)).symm.trans hf
  · cases (hrefused [n] [n] (putsOut_number hn)).symm.trans hf
    refine ⟨?_, by rw [hrefused tokens out h, hlength, widen_add_one]; rfl⟩
    simp only [List.length_append, List.length_cons, List.length_nil, Nat.zero_add] at hlt ⊢
    by_cases hin : index < before.length
    · rw [widen_of_lt hin]
      exact .inl hin
    · obtain ⟨k, rfl⟩ := Nat.exists_eq_add_of_le (Nat.not_lt.mp hin)
      rw [widen_add] at hlt ⊢
      exact .inr ⟨k, by omega, rfl⟩

end Number

/-- A group stands in its place as a number does, if the brackets in it are
balanced: the Polish notation is that with the number, the content in the
number's place, and the same bracket is refused, at an index further on by the
tokens that the group has more if it stands behind the group. -/
theorem ofTokens_group {before inner after : List Token} {o c n : Token}
    (ho : o.kind = .bracketOpen) (hc : c.kind = .bracketClose)
    (hnonneg : ∀ i, 0 ≤ excess (inner.drop i)) (hzero : excess inner = 0)
    (hn : n.isNumber = true) (hbefore : n ∉ before) (hafter : n ∉ after) :
    ∃ q, ofTokens inner = .ok q ∧
      (∀ r, ofTokens (before ++ o :: (inner ++ c :: after)) = .ok r ↔
        ∃ p, ofTokens (before ++ n :: after) = .ok p ∧ r = ⟨substitute n q.tokens p.tokens⟩) ∧
      ∀ f, ofTokens (before ++ n :: after) = .error f →
        (f.index < before.length ∨ ∃ k < after.length, f.index = before.length + 1 + k) ∧
        ofTokens (before ++ o :: (inner ++ c :: after)) = .error {
          cause := f.cause
          index := if f.index < before.length then f.index else f.index + (inner.length + 1)
          tokens := before ++ o :: (inner ++ c :: after) } := by
  obtain ⟨content, hinner⟩ := exists_consists_iff.mpr ⟨hnonneg, hzero⟩
  have hgroup := putsOut_group ho hc hinner
  have hlength : (o :: (inner ++ [c])).length = inner.length + 1 + 1 := by
    rw [List.length_cons, List.length_append, List.length_singleton]
  have hsplit : o :: (inner ++ c :: after) = (o :: (inner ++ [c])) ++ after := by
    rw [List.cons_append, List.append_assoc, List.singleton_append]
  rw [hsplit]
  exact ⟨⟨Item.polish content⟩, ofTokens_of_consists hinner,
    ofTokens_eq_substitute_iff hn hgroup hbefore hafter,
    fun _ hf => ofTokens_error_of_number hn hgroup hlength hf⟩

theorem writable_group_iff {limit : Nat} {before inner after : List Token} {o c : Token}
    (ho : o.kind = .bracketOpen) (hc : c.kind = .bracketClose) :
    Writable limit (before ++ o :: (inner ++ c :: after)) ↔
      Writable limit before ∧ Writable limit inner ∧ Writable limit after := by
  rw [writable_append, writable_cons_of_ne_number (by rw [ho]; decide), writable_append,
    writable_cons_of_ne_number (by rw [hc]; decide)]

end WordCalc.Polish
