import Mathlib.Data.List.Chain
import WordCalc.Proofs.Conservation
import WordCalc.Proofs.Unmatched

/-!
# The invariant of the scan

A step takes entries from the top of those that wait and perhaps puts its own token
there (`waiting_step`).  Precedences are held between neighbours only: above a
bracket the operators start anew.
-/

namespace WordCalc.Polish

open Token

/-- If both entries are operators, the upper one binds at least as tightly. -/
def Waiting.Nests (upper lower : Waiting) : Prop :=
  ∀ a b, Operator.ofKind? upper.token.kind = some a → Operator.ofKind? lower.token.kind = some b →
    b.precedence ≤ a.precedence

/-- The entries are tokens of the list from index `i` on, in the order of their
places, and neighbours nest. -/
structure Stacked (tokens : List Token) (i : Nat) (waiting : List Waiting) : Prop where
  ascending : (waiting.map Waiting.index).Pairwise (· < ·)
  le_index : ∀ w ∈ waiting, i ≤ w.index
  getElem?_index : ∀ w ∈ waiting, tokens[w.index]? = some w.token
  nested : waiting.IsChain Waiting.Nests

/-- What holds of the state in which all tokens from index `i` on have been
read. -/
structure Tracks (tokens : List Token) (i : Nat) (s : Scan) : Prop where
  stacked : Stacked tokens i s.waiting
  brackets_eq : (s.waiting.countP Waiting.isBracket : Int) = excess (tokens.drop i)
  numbers_eq : s.output.reverse.filter isNumber = (tokens.drop i).reverse.filter isNumber
  operators_perm : ((s.output ++ s.waiting.map Waiting.token).filter isOperator).Perm
    ((tokens.drop i).filter isOperator)

/-! ## What waits -/

theorem Waiting.nests_of_kind {upper : Waiting} (h : Operator.ofKind? upper.token.kind = none)
    (lower : Waiting) : upper.Nests lower := by
  intro a b ha
  rw [h] at ha
  cases ha

/-- What an operator does not displace binds no tighter. -/
theorem Waiting.nests_of_displaced {t : Token} {w : Waiting} (h : displaced t w = false)
    (i : Nat) : Waiting.Nests ⟨i, t⟩ w := by
  intro a b ha hb
  have hlooser : a.isLooserThan b = false := by
    have hkeep : a.displaces b = false := by
      rw [← h, displaced, show Operator.ofKind? t.kind = some a from ha, hb]
    exact (Bool.or_eq_false_iff.mp hkeep).1
  exact Int.not_lt.mp (of_decide_eq_false hlooser)

/-- A step takes entries from the top, and perhaps puts its token there. -/
theorem waiting_step {i : Nat} {t : Token} {s r : Scan} (h : step i t s = .ok r) :
    ∃ kept, kept <:+ s.waiting ∧ (r.waiting = kept ∨
      r.waiting = ⟨i, t⟩ :: kept ∧ ∀ w ∈ kept.head?, Waiting.Nests ⟨i, t⟩ w) := by
  rcases step_cases h with ⟨hn, rfl⟩ | ⟨hk, rfl⟩ | ⟨hc, rfl⟩ | ⟨op, hop, rfl⟩ |
    ⟨ho, above, w, outer, hw, habove, hbracket, rfl⟩
  · exact ⟨s.waiting, List.suffix_rfl, .inl rfl⟩
  · exact ⟨r.waiting, List.suffix_rfl, .inl rfl⟩
  · refine ⟨s.waiting, List.suffix_rfl, .inr ⟨rfl, fun w _ => Waiting.nests_of_kind ?_ w⟩⟩
    show Operator.ofKind? t.kind = none
    rw [hc]
    rfl
  · refine ⟨s.waiting.dropWhile (displaced t), List.dropWhile_suffix _, .inr ⟨rfl, ?_⟩⟩
    intro w hw
    have hkeep := List.head?_dropWhile_not (displaced t) s.waiting
    rw [Option.mem_def.mp hw] at hkeep
    exact Waiting.nests_of_displaced hkeep i
  · exact ⟨outer, ⟨above ++ [w], by rw [hw, List.append_assoc]; rfl⟩, .inl rfl⟩

namespace Stacked

variable {tokens : List Token} {i : Nat} {waiting : List Waiting}

/-- Entries taken from the top leave the rest in order, also as seen from the
token in front. -/
theorem of_suffix (h : Stacked tokens (i + 1) waiting) {kept : List Waiting}
    (hkept : kept <:+ waiting) : Stacked tokens i kept where
  ascending := h.ascending.sublist (hkept.sublist.map _)
  le_index := fun w hw => Nat.le_of_succ_le (h.le_index w (hkept.subset hw))
  getElem?_index := fun w hw => h.getElem?_index w (hkept.subset hw)
  nested := h.nested.suffix hkept

theorem hold {t : Token} (h : Stacked tokens (i + 1) waiting) {kept : List Waiting}
    (hkept : kept <:+ waiting) (ht : tokens[i]? = some t)
    (hnests : ∀ w ∈ kept.head?, Waiting.Nests ⟨i, t⟩ w) : Stacked tokens i (⟨i, t⟩ :: kept) where
  ascending := by
    refine List.pairwise_cons.mpr ⟨fun j hj => ?_, (h.of_suffix hkept).ascending⟩
    obtain ⟨w, hw, rfl⟩ := List.mem_map.mp hj
    exact h.le_index w (hkept.subset hw)
  le_index := List.forall_mem_cons.mpr ⟨Nat.le_refl i, (h.of_suffix hkept).le_index⟩
  getElem?_index := List.forall_mem_cons.mpr ⟨ht, (h.of_suffix hkept).getElem?_index⟩
  nested := (h.of_suffix hkept).nested.cons hnests

theorem step {t : Token} {s r : Scan} (h : Stacked tokens (i + 1) s.waiting)
    (ht : tokens[i]? = some t) (hstep : Polish.step i t s = .ok r) :
    Stacked tokens i r.waiting := by
  obtain ⟨kept, hkept, hr | ⟨hr, hnests⟩⟩ := waiting_step hstep
  · rw [hr]
    exact h.of_suffix hkept
  · rw [hr]
    exact h.hold hkept ht hnests

end Stacked

theorem stacked_scan {tokens : List Token} {i : Nat} {s : Scan}
    (h : scan i (tokens.drop i) = .ok s) : Stacked tokens i s.waiting := by
  generalize hread : tokens.drop i = read at h
  induction read generalizing i s with
  | nil =>
    cases h
    exact ⟨.nil, List.forall_mem_nil _, List.forall_mem_nil _, .nil⟩
  | cons t rest ih =>
    obtain ⟨before, hb, hstep⟩ := Outcome.bind_eq_ok_iff.mp h
    have ht : tokens[i]? = some t := by rw [← List.head?_drop, hread, List.head?_cons]
    have hrest : tokens.drop (i + 1) = rest := by rw [← List.tail_drop, hread, List.tail_cons]
    exact (ih hrest hb).step ht hstep

/-! ## What has been read -/

theorem Scan.Sorted.isNumber_eq_false {s : Scan} (hs : s.Sorted) {w : Waiting}
    (hw : w ∈ s.waiting) : w.token.isNumber = false := by
  rcases hs.waiting w hw with hop | hbracket
  · obtain ⟨op, hop⟩ := Option.isSome_iff_exists.mp hop
    exact isNumber_eq_false_of_operation? hop
  · rw [isNumber, beq_iff_eq.mp hbracket]
    rfl

/-- What leaves the stack brings no number to the output. -/
theorem Scan.Sorted.filter_isNumber {s : Scan} (hs : s.Sorted) {gone : List Waiting}
    (hgone : gone ⊆ s.waiting) :
    ((gone.map Waiting.token).reverse ++ s.output).filter isNumber =
      s.output.filter isNumber := by
  have hnone : (gone.map Waiting.token).reverse.filter isNumber = [] := by
    rw [List.filter_eq_nil_iff]
    intro t ht
    obtain ⟨w, hw, rfl⟩ := List.mem_map.mp (List.mem_reverse.mp ht)
    rw [hs.isNumber_eq_false (hgone hw)]
    decide
  rw [List.filter_append, hnone, List.nil_append]

/-- A number goes straight to the output, and no other one gets there. -/
theorem numbers_step {i : Nat} {t : Token} {s r : Scan} (h : step i t s = .ok r)
    (hs : s.Sorted) :
    r.output.filter isNumber = [t].filter isNumber ++ s.output.filter isNumber := by
  have hother (hk : t.kind ≠ .number) : [t].filter isNumber = [] :=
    List.filter_cons_of_neg (by simpa [isNumber] using hk)
  rcases step_cases h with ⟨hn, rfl⟩ | ⟨hk, rfl⟩ | ⟨hc, rfl⟩ | ⟨op, hop, rfl⟩ |
    ⟨ho, above, w, outer, hw, habove, hbracket, rfl⟩
  · exact List.filter_append [t] s.output
  · rw [hother (by rw [hk]; decide), List.nil_append]
  · rw [hother (by rw [hc]; decide), List.nil_append]
    rfl
  · have hk : t.kind ≠ .number := by
      intro hk
      rw [operation?, hk] at hop
      cases hop
    rw [hother hk, List.nil_append]
    exact hs.filter_isNumber (List.takeWhile_subset _)
  · rw [hother (by rw [ho]; decide), List.nil_append]
    exact hs.filter_isNumber (hw ▸ List.subset_append_left above _)

theorem numbers_scan {i : Nat} {tokens : List Token} {s : Scan} (h : scan i tokens = .ok s) :
    s.output.filter isNumber = tokens.filter isNumber := by
  induction tokens generalizing i s with
  | nil =>
    cases h
    rfl
  | cons t rest ih =>
    obtain ⟨before, hb, hstep⟩ := Outcome.bind_eq_ok_iff.mp h
    rw [numbers_step hstep (sorted_scan hb), ih hb]
    exact (List.filter_append [t] rest).symm

theorem filter_isOperator_filter_survives (tokens : List Token) :
    (tokens.filter survives).filter isOperator = tokens.filter isOperator := by
  rw [List.filter_filter]
  congr 1
  funext t
  rw [survives]
  cases t.isOperator <;> simp

theorem operators_scan {i : Nat} {tokens : List Token} {s : Scan} (h : scan i tokens = .ok s) :
    ((s.output ++ s.waiting.map Waiting.token).filter isOperator).Perm
      (tokens.filter isOperator) := by
  have hread := (perm_scan h).filter isOperator
  rw [filter_isOperator_filter_survives, filter_isOperator_filter_survives] at hread
  exact (List.perm_append_comm.filter _).trans hread

/-- At every point of a scan its state tracks what has been read. -/
theorem tracks_scan {tokens : List Token} {i : Nat} {s : Scan}
    (h : scan i (tokens.drop i) = .ok s) : Tracks tokens i s where
  stacked := stacked_scan h
  brackets_eq := by
    rw [← length_positions_scan h, Scan.positions, List.length_map, List.countP_eq_length_filter]
  numbers_eq := by
    rw [List.filter_reverse, List.filter_reverse, numbers_scan h]
  operators_perm := operators_scan h

/-- The scan of a list goes through the state after each of its suffixes. -/
theorem scan_eq_bind (tokens : List Token) (i : Nat) :
    scan 0 tokens = (scan i (tokens.drop i)).bind fun s => resume 0 s (tokens.take i) := by
  rcases Nat.le_total i tokens.length with hi | hi
  · have hlength : 0 + (tokens.take i).length = i := by
      rw [List.length_take]
      omega
    have hsplit := resume_append 0 .empty (tokens.take i) (tokens.drop i)
    rwa [List.take_append_drop, hlength, ← scan_eq_resume, ← scan_eq_resume] at hsplit
  · rw [List.drop_eq_nil_of_le hi, List.take_of_length_le hi, scan_eq_resume]
    rfl

/-- Polish notation has the numbers of the list in their order and its operators
in some order, and nothing else. -/
theorem ofTokens_filter {tokens : List Token} {p : Polish} (h : ofTokens tokens = .ok p) :
    p.tokens.filter isNumber = tokens.filter isNumber ∧
    (p.tokens.filter isOperator).Perm (tokens.filter isOperator) ∧
    ∀ t ∈ p.tokens, t.survives = true := by
  have hperm := ofTokens_perm h
  obtain ⟨s, hs, hf⟩ := ofTokens_eq_ok h
  refine ⟨?_, ?_, fun t ht => List.of_mem_filter (hperm.subset ht)⟩
  · rw [(finish_eq_ok_iff.mp hf).2, (sorted_scan hs).filter_isNumber (List.Subset.refl _),
      numbers_scan hs]
  · have hoperators := hperm.filter isOperator
    rwa [filter_isOperator_filter_survives] at hoperators

/-- A scan goes from state to state, each of which tracks what has been read, and
what it ends with has the numbers and operators of the list. -/
theorem tracks_along_scan (tokens : List Token) :
    (∀ i, scan 0 tokens = (scan i (tokens.drop i)).bind fun s => resume 0 s (tokens.take i)) ∧
    (∀ i s, scan i (tokens.drop i) = .ok s → Tracks tokens i s) ∧
    ∀ p, ofTokens tokens = .ok p →
      p.tokens.filter isNumber = tokens.filter isNumber ∧
      (p.tokens.filter isOperator).Perm (tokens.filter isOperator) ∧
      ∀ t ∈ p.tokens, t.survives = true :=
  ⟨scan_eq_bind tokens, fun _ _ => tracks_scan, fun _ => ofTokens_filter⟩

/-- In `8 / ( 6 - 2 * 3 + 1 )` the scan has come to the minus sign: the plus sign
and the bracket wait under it, and the product is put out. -/
theorem tracks_along_scan_difference :
    let tokens : List Token := [.number 8, { kind := .slash }, { kind := .bracketOpen }, .number 6,
      { kind := .minus }, .number 2, { kind := .star }, .number 3, { kind := .plus }, .number 1,
      { kind := .bracketClose }]
    let s : Scan :=
      { waiting := [⟨4, { kind := .minus }⟩, ⟨8, { kind := .plus }⟩,
          ⟨10, { kind := .bracketClose }⟩],
        output := [{ kind := .star }, .number 2, .number 3, .number 1] }
    let p : Polish := ⟨[{ kind := .slash }, .number 8, { kind := .plus }, { kind := .minus },
      .number 6, { kind := .star }, .number 2, .number 3, .number 1]⟩
    scan 4 (tokens.drop 4) = .ok s ∧ Tracks tokens 4 s ∧ ofTokens tokens = .ok p ∧
      (p.tokens.filter isOperator).Perm (tokens.filter isOperator) := by
  intro tokens s p
  have hs : scan 4 (tokens.drop 4) = .ok s := rfl
  have hp : ofTokens tokens = .ok p := rfl
  obtain ⟨_, htracks, hkept⟩ := tracks_along_scan tokens
  exact ⟨hs, htracks 4 s hs, hp, (hkept p hp).2.1⟩

end WordCalc.Polish
