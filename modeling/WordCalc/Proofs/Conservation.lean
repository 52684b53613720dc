import WordCalc.Proofs.Balance

namespace WordCalc.Polish

open Token

def Scan.tokens (s : Scan) : List Token := s.waiting.map Waiting.token ++ s.output

/-- What waits is operators and brackets, and only parts of Polish notation are
put out. -/
structure Scan.Sorted (s : Scan) : Prop where
  waiting : ∀ w ∈ s.waiting, w.token.isOperator = true ∨ w.isBracket = true
  output : ∀ t ∈ s.output, t.survives = true

theorem Scan.Sorted.survives {s : Scan} (hs : s.Sorted) {w : Waiting} (hw : w ∈ s.waiting)
    (hb : w.isBracket = false) : w.token.survives = true := by
  rcases hs.waiting w hw with h | h
  · rw [Token.survives, h, Bool.or_true]
  · rw [hb] at h
    cases h

theorem sorted_step {i : Nat} {t : Token} {s r : Scan} (h : step i t s = .ok r) (hs : s.Sorted) :
    r.Sorted := by
  rcases step_cases h with ⟨hn, rfl⟩ | ⟨hk, rfl⟩ | ⟨hc, rfl⟩ | ⟨op, hop, rfl⟩ |
    ⟨ho, above, w, outer, hw, habove, hbracket, rfl⟩
  · exact ⟨hs.waiting, List.forall_mem_cons.mpr ⟨survives_of_isNumber hn, hs.output⟩⟩
  · exact hs
  · exact ⟨List.forall_mem_cons.mpr ⟨.inr (beq_iff_eq.mpr hc), hs.waiting⟩, hs.output⟩
  · refine ⟨List.forall_mem_cons.mpr ⟨.inl (isOperator_of_operation? hop), ?_⟩, ?_⟩
    · intro w hw
      exact hs.waiting w (List.dropWhile_subset _ hw)
    · intro u hu
      rcases List.mem_append.mp hu with hu | hu
      · obtain ⟨w, hw, rfl⟩ := List.mem_map.mp (List.mem_reverse.mp hu)
        have hgone : displaced t w = true := List.mem_takeWhile_imp hw
        refine hs.survives (List.takeWhile_subset _ hw) ?_
        by_contra hb
        rw [displaced_of_isBracket t (Bool.not_eq_false _ ▸ hb)] at hgone
        cases hgone
      · exact hs.output u hu
  · refine ⟨fun v hv => hs.waiting v ?_, fun u hu => ?_⟩
    · rw [hw]
      exact List.mem_append_right above (List.mem_cons_of_mem w hv)
    · rcases List.mem_append.mp hu with hu | hu
      · obtain ⟨v, hv, rfl⟩ := List.mem_map.mp (List.mem_reverse.mp hu)
        exact hs.survives (hw ▸ List.mem_append_left _ hv) (habove v hv)
      · exact hs.output u hu

theorem perm_step {i : Nat} {t : Token} {s r : Scan} (h : step i t s = .ok r) :
    (r.tokens.filter Token.survives).Perm ((t :: s.tokens).filter Token.survives) := by
  rcases step_cases h with ⟨hn, rfl⟩ | ⟨hk, rfl⟩ | ⟨hc, rfl⟩ | ⟨op, hop, rfl⟩ |
    ⟨ho, above, w, outer, hw, habove, hbracket, rfl⟩
  · exact List.perm_middle.filter _
  · have ht : t.survives = false := survives_eq_false_iff.mpr (.inr (.inr hk))
    rw [List.filter_cons_of_neg (by rw [ht]; decide)]
  · exact List.Perm.refl _
  · exact ((s.release_perm (displaced t)).cons t).filter _
  · have ht : t.survives = false := survives_eq_false_iff.mpr (.inl ho)
    have hwt : w.token.survives = false :=
      survives_eq_false_iff.mpr (.inr (.inl (beq_iff_eq.mp hbracket)))
    have hperm : s.tokens.Perm (w.token :: (outer.map Waiting.token ++
        ((above.map Waiting.token).reverse ++ s.output))) := by
      rw [Scan.tokens, hw, List.map_append, List.map_cons, List.append_assoc, List.cons_append]
      refine List.perm_middle.trans (List.Perm.cons _ ?_)
      refine (List.perm_append_comm_assoc _ _ _).trans (List.Perm.append_left _ ?_)
      exact (List.reverse_perm _).symm.append_right _
    have hfilter := hperm.filter Token.survives
    rw [List.filter_cons_of_neg (by rw [hwt]; decide)] at hfilter
    rw [List.filter_cons_of_neg (by rw [ht]; decide)]
    exact hfilter.symm

theorem sorted_scan {i : Nat} {tokens : List Token} {s : Scan} (h : scan i tokens = .ok s) :
    s.Sorted := by
  induction tokens generalizing i s with
  | nil =>
    cases h
    exact ⟨List.forall_mem_nil _, List.forall_mem_nil _⟩
  | cons t rest ih =>
    obtain ⟨before, hb, hstep⟩ := Outcome.bind_eq_ok_iff.mp h
    exact sorted_step hstep (ih hb)

/-- The numbers and operators that have been read are those in the state. -/
theorem perm_scan {i : Nat} {tokens : List Token} {s : Scan} (h : scan i tokens = .ok s) :
    (s.tokens.filter Token.survives).Perm (tokens.filter Token.survives) := by
  induction tokens generalizing i s with
  | nil =>
    cases h
    exact List.Perm.refl _
  | cons t rest ih =>
    obtain ⟨before, hb, hstep⟩ := Outcome.bind_eq_ok_iff.mp h
    refine (perm_step hstep).trans ?_
    show (([t] ++ before.tokens).filter Token.survives).Perm
      (([t] ++ rest).filter Token.survives)
    rw [List.filter_append, List.filter_append]
    exact (ih hb).append_left _

/-- Polish notation holds the numbers and operators of the list, each once. -/
theorem ofTokens_perm {tokens : List Token} {p : Polish} (h : ofTokens tokens = .ok p) :
    p.tokens.Perm (tokens.filter Token.survives) := by
  obtain ⟨s, hs, hf⟩ := ofTokens_eq_ok h
  obtain ⟨hnone, hout⟩ := finish_eq_ok_iff.mp hf
  have hsorted := sorted_scan hs
  have hall : ∀ t ∈ p.tokens, t.survives = true := by
    intro t ht
    rw [hout] at ht
    rcases List.mem_append.mp ht with ht | ht
    · obtain ⟨w, hw, rfl⟩ := List.mem_map.mp (List.mem_reverse.mp ht)
      exact hsorted.survives hw (hnone w hw)
    · exact hsorted.output t ht
  have hheld : p.tokens.Perm s.tokens := by
    rw [hout]
    exact (List.reverse_perm _).append_right _
  have hfilter := hheld.filter Token.survives
  rw [List.filter_eq_self.mpr hall] at hfilter
  exact hfilter.trans (perm_scan hs)

end WordCalc.Polish
