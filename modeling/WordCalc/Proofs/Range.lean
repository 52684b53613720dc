import WordCalc.Proofs.Counter

namespace WordCalc

theorem Operation.fits_of_apply {op : Operation} {a b n : Int} (h : op.apply a b = .ok n) :
    Word.Fits n := by
  unfold Operation.apply at h
  split at h
  · cases h
  · split at h
    · next hfits =>
      cases h
      exact hfits
    · cases h

theorem Program.fits_of_fetch {code : List UInt8} {offset : Nat} {n : Int}
    (h : fetch code offset = some (.ok (.push n))) : Word.Fits n := by
  cases stands_of_fetch h with
  | push _ hsize _ => exact Word.fits_ofBytes hsize

namespace Machine

variable {code : List UInt8} {capacity : Int}

theorem fits_of_turn {a b : State} (h : Turn code a b) (ha : ∀ n ∈ a.stack.items, Word.Fits n) :
    ∀ n ∈ b.stack.items, Word.Fits n := by
  cases h with
  | @run offset i s t hi hs =>
    cases i with
    | push n =>
      have ht := (Stack.push_eq_ok_iff.mp (Outcome.mapError_eq_ok_iff.mp hs)).2
      rw [ht]
      exact List.forall_mem_cons.mpr ⟨Program.fits_of_fetch hi, ha⟩
    | operation op =>
      obtain ⟨x, y, v, rest, hitems, happly, rfl⟩ := exists_of_step_operation hs
      simp only [hitems, List.forall_mem_cons] at ha
      exact List.forall_mem_cons.mpr ⟨Operation.fits_of_apply happly, ha.2.2⟩

theorem fits_of_reaches {state : State} (h : Reaches code capacity state) :
    ∀ n ∈ state.stack.items, Word.Fits n := by
  induction h with
  | refl => exact List.forall_mem_nil _
  | tail _ hturn ih => exact fits_of_turn hturn ih

theorem fits_of_top {s : Stack Int} (h : ∀ n ∈ s.items, Word.Fits n) {n : Int}
    (hn : s.top = .ok n) : Word.Fits n := by
  obtain ⟨capacity, items⟩ := s
  cases items with
  | nil => cases hn
  | cons v rest =>
    cases hn
    exact h n List.mem_cons_self

theorem fits_of_execute {n : Int} (h : execute capacity code = .ok n) : Word.Fits n := by
  obtain ⟨state, hreaches, hends⟩ := execute_eq_iff.mp h
  rcases ends_cases hends with ⟨_, htop⟩ | ⟨_, _, houtcome⟩ | ⟨_, _, _, _, houtcome⟩
  · exact fits_of_top (fits_of_reaches hreaches) (Outcome.mapError_eq_ok_iff.mp htop.symm)
  · cases houtcome
  · cases houtcome

end Machine
end WordCalc
