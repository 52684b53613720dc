import Mathlib.Data.List.Sort
import WordCalc.Token.Order

/-!
# Order and equality of tokens

Tokens with the same rank and weight are tied.  Tied tokens are equal unless they
clash: a missing value weighs as much as `-1`.  Sorting leaves clashing tokens as it
found them.
-/

namespace WordCalc.Token

/-- Tokens of one kind that differ only in that one has no value and the other
the value that a missing one weighs as much as. -/
def Clashes (a b : Token) : Prop :=
  a.kind = b.kind ∧
    ((a.value = none ∧ b.value = some (-1)) ∨ (a.value = some (-1) ∧ b.value = none))

instance (a b : Token) : Decidable (Clashes a b) := inferInstanceAs (Decidable (_ ∧ _))

/-- Whether the order cannot tell the tokens apart. -/
def ties (a b : Token) : Bool := a.kind == b.kind && a.weight == b.weight

/-! ## Comparisons -/

theorem lt_iff {a b : Token} : a.lt b = true ↔
    a.kind.rank < b.kind.rank ∨ a.kind.rank = b.kind.rank ∧ a.weight < b.weight := by
  simp only [lt, Bool.or_eq_true, Bool.and_eq_true, decide_eq_true_eq, beq_iff_eq]

theorem lt_eq_false_iff {a b : Token} : a.lt b = false ↔
    b.kind.rank < a.kind.rank ∨ b.kind.rank = a.kind.rank ∧ b.weight ≤ a.weight := by
  rw [Bool.eq_false_iff, ne_eq, lt_iff]
  omega

theorem lt_trans {a b c : Token} (hab : a.lt b = true) (hbc : b.lt c = true) :
    a.lt c = true := by
  rw [lt_iff] at *
  omega

theorem lt_self (a : Token) : a.lt a = false := by
  rw [lt_eq_false_iff]
  omega

theorem ties_iff {a b : Token} : a.ties b = true ↔ a.lt b = false ∧ b.lt a = false := by
  rw [ties, Bool.and_eq_true, beq_iff_eq, beq_iff_eq, lt_eq_false_iff, lt_eq_false_iff]
  constructor
  · rintro ⟨hkind, hweight⟩
    rw [hkind, hweight]
    omega
  · intro h
    exact ⟨Kind.rank_injective (by omega), by omega⟩

theorem eq_or_clashes_of_ties {a b : Token} (h : a.ties b = true) : a = b ∨ Clashes a b := by
  obtain ⟨kind, value⟩ := a
  obtain ⟨kind', value'⟩ := b
  simp only [ties, weight, Bool.and_eq_true, beq_iff_eq] at h
  obtain ⟨rfl, hweight⟩ := h
  match value, value' with
  | none, none => exact .inl rfl
  | none, some n => exact .inr ⟨rfl, .inl ⟨rfl, congrArg some hweight.symm⟩⟩
  | some m, none => exact .inr ⟨rfl, .inr ⟨congrArg some hweight, rfl⟩⟩
  | some m, some n => exact .inl (by rw [show m = n from hweight])

namespace Clashes

variable {a b : Token}

theorem ties (h : Clashes a b) : a.ties b = true := by
  obtain ⟨hkind, ⟨ha, hb⟩ | ⟨ha, hb⟩⟩ := h <;>
    simp [Token.ties, weight, hkind, ha, hb]

theorem ne (h : Clashes a b) : a ≠ b := by
  rintro rfl
  obtain ⟨_, ⟨ha, hb⟩ | ⟨ha, hb⟩⟩ := h <;> cases ha.symm.trans hb

end Clashes

theorem gt_eq_true_iff {a b : Token} : a.gt b = true ↔ a.lt b = false ∧ a ≠ b := by
  simp only [gt, Bool.and_eq_true, Bool.not_eq_true', bne_iff_ne]

/-- Of two tokens one is less, or they are equal, or the first is greater. -/
theorem trichotomy (a b : Token) :
    (a.lt b = true ∧ a ≠ b ∧ a.gt b = false) ∨ (a.lt b = false ∧ a = b ∧ a.gt b = false) ∨
      (a.lt b = false ∧ a ≠ b ∧ a.gt b = true) := by
  by_cases heq : a = b
  · subst heq
    refine .inr (.inl ⟨lt_self a, rfl, ?_⟩)
    rw [Bool.eq_false_iff, ne_eq, gt_eq_true_iff]
    exact fun h => h.2 rfl
  · cases hlt : a.lt b with
    | true =>
      refine .inl ⟨rfl, heq, ?_⟩
      rw [gt, hlt]
      rfl
    | false => exact .inr (.inr ⟨rfl, heq, gt_eq_true_iff.mpr ⟨hlt, heq⟩⟩)

/-- Greater is the reverse of less, except for tokens that clash. -/
theorem gt_iff_lt_iff {a b : Token} :
    (a.gt b = true ↔ b.lt a = true) ↔ ¬ Clashes a b := by
  constructor
  · intro h hclash
    obtain ⟨hab, hba⟩ := ties_iff.mp hclash.ties
    rw [h.mp (gt_eq_true_iff.mpr ⟨hab, hclash.ne⟩)] at hba
    cases hba
  · intro hnone
    rw [gt_eq_true_iff]
    constructor
    · rintro ⟨hab, hne⟩
      by_contra hba
      rcases eq_or_clashes_of_ties (ties_iff.mpr ⟨hab, Bool.eq_false_iff.mpr hba⟩) with heq | h
      · exact hne heq
      · exact hnone h
    · intro hba
      refine ⟨?_, ?_⟩
      · rw [lt_iff] at hba
        rw [lt_eq_false_iff]
        omega
      · rintro rfl
        rw [lt_self] at hba
        cases hba

/-! ## Sorting -/

/-- The comparison that sorting makes. -/
def precedes (a b : Token) : Bool := !b.lt a

theorem precedes_iff {a b : Token} : a.precedes b = true ↔ b.lt a = false := by
  rw [precedes, Bool.not_eq_true']

theorem precedes_trans (a b c : Token) (hab : a.precedes b = true) (hbc : b.precedes c = true) :
    a.precedes c = true := by
  rw [precedes_iff, lt_eq_false_iff] at *
  omega

theorem precedes_total (a b : Token) : (a.precedes b || b.precedes a) = true := by
  rw [Bool.or_eq_true, precedes_iff, precedes_iff, lt_eq_false_iff, lt_eq_false_iff]
  omega

theorem sort_perm (tokens : List Token) : (sort tokens).Perm tokens :=
  List.mergeSort_perm tokens precedes

theorem sort_pairwise (tokens : List Token) :
    (sort tokens).Pairwise fun a b => a.precedes b = true :=
  List.pairwise_mergeSort precedes_trans precedes_total tokens

/-- Tokens that are tied keep their order. -/
theorem filter_sort (a : Token) (tokens : List Token) :
    (sort tokens).filter a.ties = tokens.filter a.ties := by
  have htied : (tokens.filter a.ties).Pairwise fun b c => b.precedes c = true := by
    refine List.pairwise_of_forall_mem_list fun b hb c hc => ?_
    obtain ⟨hab, hba⟩ := ties_iff.mp (List.of_mem_filter hb)
    obtain ⟨hac, hca⟩ := ties_iff.mp (List.of_mem_filter hc)
    rw [precedes_iff]
    rw [lt_eq_false_iff] at *
    omega
  have hsub : (tokens.filter a.ties).Sublist (sort tokens) :=
    List.sublist_mergeSort precedes_trans precedes_total htied List.filter_sublist
  have hfilter := hsub.filter a.ties
  simp only [List.filter_filter, Bool.and_self] at hfilter
  exact (hfilter.eq_of_length ((sort_perm tokens).filter _).length_eq.symm).symm

theorem sort_eq_of_perm {tokens other : List Token}
    (hnone : ∀ a ∈ tokens, ∀ b ∈ tokens, ¬ Clashes a b) (hperm : other.Perm tokens) :
    sort other = sort tokens := by
  have hsorted : (sort other).Perm tokens := (sort_perm other).trans hperm
  refine List.Perm.eq_of_pairwise (fun a b ha hb hab hba => ?_) (sort_pairwise other)
    (sort_pairwise tokens) (hsorted.trans (sort_perm tokens).symm)
  have hties : a.ties b = true :=
    ties_iff.mpr ⟨precedes_iff.mp hba, precedes_iff.mp hab⟩
  have hclash := hnone a (hsorted.mem_iff.mp ha) b ((sort_perm tokens).mem_iff.mp hb)
  exact (eq_or_clashes_of_ties hties).resolve_right hclash

/-- Two tokens that clash are sorted one way and the other. -/
theorem not_clashes_of_sort_eq {tokens : List Token}
    (hsame : ∀ other, other.Perm tokens → sort other = sort tokens) {a b : Token}
    (ha : a ∈ tokens) (hb : b ∈ tokens) : ¬ Clashes a b := by
  intro hclash
  have hb' : b ∈ tokens.erase a := (List.mem_erase_of_ne hclash.ne.symm).mpr hb
  have hfront : (a :: b :: (tokens.erase a).erase b).Perm tokens :=
    ((List.perm_cons_erase hb').symm.cons a).trans (List.perm_cons_erase ha).symm
  have hswapped := (List.Perm.swap a b ((tokens.erase a).erase b)).trans hfront
  have hsort := (hsame _ hfront).trans (hsame _ hswapped).symm
  -- sorting keeps both among the tokens that are tied with `a`, each in its place
  have hkept := congrArg (List.filter a.ties) hsort
  have hself : a.ties a = true := ties_iff.mpr ⟨lt_self a, lt_self a⟩
  rw [filter_sort, filter_sort, List.filter_cons_of_pos hself,
    List.filter_cons_of_pos hclash.ties, List.filter_cons_of_pos hclash.ties] at hkept
  exact hclash.ne (List.cons.inj hkept).1

/-- The order is total and a reverse of itself but for the tokens that clash, and
every arrangement of a list is sorted the same way if and only if no two of its
tokens clash. -/
theorem total_but_for_clashes (a b c : Token) (tokens : List Token) :
    ((a.lt b = true ∧ a ≠ b ∧ a.gt b = false) ∨ (a.lt b = false ∧ a = b ∧ a.gt b = false) ∨
      (a.lt b = false ∧ a ≠ b ∧ a.gt b = true)) ∧
    ((a.gt b = true ↔ b.lt a = true) ↔ ¬ Clashes a b) ∧
    (a.lt b = true → b.lt c = true → a.lt c = true) ∧
    ((∀ other, other.Perm tokens → sort other = sort tokens) ↔
      ∀ u ∈ tokens, ∀ v ∈ tokens, ¬ Clashes u v) :=
  ⟨trichotomy a b, gt_iff_lt_iff, lt_trans,
    fun hsame _ hu _ hv => not_clashes_of_sort_eq hsame hu hv,
    fun hnone _ => sort_eq_of_perm hnone⟩

/-- A number without a value comes before zero, and with no number `-1` beside it
there is one way to sort it. -/
theorem total_but_for_clashes_numbers :
    let a : Token := { kind := .number }
    a.lt (number 0) = true ∧ (number 0).lt (number 1) = true ∧ a.lt (number 1) = true ∧
      [number 0, a, number 1].Perm [number 1, number 0, a] ∧
      sort [number 0, a, number 1] = sort [number 1, number 0, a] := by
  intro a
  obtain ⟨_, _, htrans, hsort⟩ :=
    total_but_for_clashes a (number 0) (number 1) [number 1, number 0, a]
  have hperm : [number 0, a, number 1].Perm [number 1, number 0, a] := by
    show ([number 0, a] ++ [number 1]).Perm ([number 1] ++ [number 0, a])
    exact List.perm_append_comm
  exact ⟨by decide, by decide, htrans (by decide) (by decide), hperm,
    hsort.mpr (by decide) _ hperm⟩

/-- A number without a value and the number `-1` are each greater than the other,
and a list of the two is sorted as it stands. -/
theorem clashing_numbers :
    let a : Token := { kind := .number }
    let b := number (-1)
    a.gt b = true ∧ b.gt a = true ∧ ¬ (a.gt b = true ↔ b.lt a = true) ∧
      [b, a].Perm [a, b] ∧ sort [b, a] ≠ sort [a, b] := by
  intro a b
  have hab : sort [a, b] = [a, b] := List.mergeSort_of_pairwise (by decide)
  have hba : sort [b, a] = [b, a] := List.mergeSort_of_pairwise (by decide)
  refine ⟨by decide, by decide, by decide, .swap a b [], ?_⟩
  rw [hab, hba]
  decide

end WordCalc.Token
