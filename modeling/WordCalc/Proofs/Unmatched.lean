import Mathlib.Order.Bounds.Basic
import WordCalc.Proofs.Balance
import WordCalc.Proofs.Writing

/-!
# Unmatched brackets

An opening bracket is refused at the last suffix that holds more opening brackets
than closing ones.  Otherwise the closing brackets that wait are left over, and the
one with `n` others above it ends the shortest prefix with more than `n` too many
(`isLeast_positions`).
-/

namespace WordCalc

namespace Token

def isOpen (t : Token) : Bool := t.kind == .bracketOpen

def isClose (t : Token) : Bool := t.kind == .bracketClose

/-- How many more closing brackets there are than opening ones. -/
def excess (tokens : List Token) : Int :=
  (tokens.countP isClose : Int) - tokens.countP isOpen

theorem excess_append (a b : List Token) : excess (a ++ b) = excess a + excess b := by
  unfold excess
  rw [List.countP_append, List.countP_append]
  omega

theorem excess_cons (t : Token) (rest : List Token) :
    excess (t :: rest) = excess [t] + excess rest := excess_append [t] rest

theorem excess_open {t : Token} (h : t.kind = .bracketOpen) : excess [t] = -1 := by
  unfold excess
  rw [List.countP_singleton, List.countP_singleton, isClose, isOpen, h]
  rfl

theorem excess_close {t : Token} (h : t.kind = .bracketClose) : excess [t] = 1 := by
  unfold excess
  rw [List.countP_singleton, List.countP_singleton, isClose, isOpen, h]
  rfl

theorem excess_of_survives {t : Token} (h : t.survives = true) : excess [t] = 0 := by
  obtain ⟨kind, value⟩ := t
  cases kind with
  | bracketOpen | bracketClose | blank => cases h
  | _ => rfl

theorem excess_blank {t : Token} (h : t.kind = .blank) : excess [t] = 0 := by
  unfold excess
  rw [List.countP_singleton, List.countP_singleton, isClose, isOpen, h]
  rfl

theorem excess_singleton (t : Token) : (t.kind = .bracketOpen ∧ excess [t] = -1) ∨
    (t.kind = .bracketClose ∧ excess [t] = 1) ∨ excess [t] = 0 := by
  obtain ⟨kind, value⟩ := t
  cases kind with
  | bracketOpen => exact .inl ⟨rfl, rfl⟩
  | bracketClose => exact .inr (.inl ⟨rfl, rfl⟩)
  | _ => exact .inr (.inr rfl)

/-- Where a prefix of `t :: rest` first holds more than `n` closing brackets too
many, when it is known where one of `rest` does. -/
theorem isLeast_cons {t : Token} {rest : List Token} {m n : Int} {k : Nat}
    (h : IsLeast {j | m < excess (rest.take (j + 1))} k) (hm : excess [t] + m = n)
    (hn : excess [t] ≤ n) : IsLeast {j | n < excess ((t :: rest).take (j + 1))} (k + 1) := by
  constructor
  · have hk : m < excess (rest.take (k + 1)) := h.1
    show n < excess (t :: rest.take (k + 1))
    rw [excess_cons]
    omega
  · intro j hj
    cases j with
    | zero =>
      have hlt : n < excess [t] := hj
      omega
    | succ j =>
      have hlt : n < excess (t :: rest.take (j + 1)) := hj
      rw [excess_cons] at hlt
      exact Nat.succ_le_succ (h.2 (show m < excess (rest.take (j + 1)) by omega))

end Token

namespace Polish

open Token

/-- Where the closing brackets stand that wait, the latest first. -/
def Scan.positions (s : Scan) : List Nat :=
  (s.waiting.filter Waiting.isBracket).map Waiting.index

/-- A closing bracket waits where it stands, an opening one takes the latest that
waits, and no other token changes them. -/
theorem positions_step {i : Nat} {t : Token} {s r : Scan} (h : step i t s = .ok r) :
    (t.kind = .bracketClose ∧ r.positions = i :: s.positions) ∨
    (t.kind = .bracketOpen ∧ ∃ j, s.positions = j :: r.positions) ∨
    (excess [t] = 0 ∧ r.positions = s.positions) := by
  rcases step_cases h with ⟨hn, rfl⟩ | ⟨hk, rfl⟩ | ⟨hc, rfl⟩ | ⟨op, hop, rfl⟩ |
    ⟨ho, above, w, outer, hw, habove, hbracket, rfl⟩
  · exact .inr (.inr ⟨excess_of_survives (survives_of_isNumber hn), rfl⟩)
  · exact .inr (.inr ⟨excess_blank hk, rfl⟩)
  · have hw : Waiting.isBracket ⟨i, t⟩ = true := beq_iff_eq.mpr hc
    refine .inl ⟨hc, ?_⟩
    rw [Scan.positions, Scan.hold, List.filter_cons_of_pos hw, List.map_cons]
    rfl
  · have hw : Waiting.Holds (fun _ => true) ⟨i, t⟩ := ⟨op, hop, rfl⟩
    refine .inr (.inr ⟨excess_of_survives (survives_of_operation? hop), ?_⟩)
    rw [Scan.positions, Scan.hold, List.filter_cons_of_neg (by rw [hw.isBracket]; decide),
      filter_release_displaced]
    rfl
  · refine .inr (.inl ⟨ho, w.index, ?_⟩)
    rw [Scan.positions, filter_of_waiting hw habove hbracket, List.map_cons]
    rfl

theorem length_positions_step {i : Nat} {t : Token} {s r : Scan} (h : step i t s = .ok r) :
    (r.positions.length : Int) = excess [t] + s.positions.length := by
  rcases positions_step h with ⟨hc, hr⟩ | ⟨ho, j, hs⟩ | ⟨hz, hr⟩
  · rw [excess_close hc, hr, List.length_cons]
    omega
  · rw [excess_open ho, hs, List.length_cons]
    omega
  · rw [hz, hr]
    omega

theorem positions_eq_nil_iff {s : Scan} :
    s.positions = [] ↔ ∀ w ∈ s.waiting, w.isBracket = false := by
  rw [Scan.positions, List.map_eq_nil_iff, List.filter_eq_nil_iff]
  simp only [Bool.not_eq_true]

/-- A step fails only for an opening bracket for which no closing one waits. -/
theorem step_eq_error {i : Nat} {t : Token} {s : Scan} {u : Unmatched}
    (h : step i t s = .error u) :
    t.kind = .bracketOpen ∧ s.positions = [] ∧ u = ⟨.unclosed, i⟩ := by
  obtain ⟨kind, value⟩ := t
  cases kind with
  | bracketOpen =>
    rcases eq_or_exists_bracket s.waiting with hnone | ⟨above, w, outer, hw, habove, hbracket⟩
    · rw [step_open_of_none rfl i hnone] at h
      exact ⟨rfl, positions_eq_nil_iff.mpr hnone, (Except.error.inj h).symm⟩
    · obtain ⟨waiting, output⟩ := s
      simp only at hw
      rw [hw, step_open rfl i habove hbracket] at h
      cases h
  | _ => cases h

/-! ## Along a scan -/

theorem length_positions_scan {i : Nat} {tokens : List Token} {s : Scan}
    (h : scan i tokens = .ok s) : (s.positions.length : Int) = excess tokens := by
  induction tokens generalizing i s with
  | nil =>
    cases h
    rfl
  | cons t rest ih =>
    obtain ⟨before, hb, hstep⟩ := Outcome.bind_eq_ok_iff.mp h
    rw [length_positions_step hstep, ih hb, ← excess_cons]

/-- As long as a scan goes on, no suffix has an opening bracket left over. -/
theorem excess_drop_nonneg {i : Nat} {tokens : List Token} {s : Scan}
    (h : scan i tokens = .ok s) (k : Nat) : 0 ≤ excess (tokens.drop k) := by
  induction tokens generalizing i s k with
  | nil =>
    rw [List.drop_nil]
    exact Int.le_refl 0
  | cons t rest ih =>
    cases k with
    | zero =>
      have hlen := length_positions_scan h
      rw [List.drop_zero]
      omega
    | succ k =>
      obtain ⟨before, hb, _⟩ := Outcome.bind_eq_ok_iff.mp h
      exact ih hb k

/-- A scan fails at the last suffix that has an opening bracket left over. -/
theorem scan_eq_error {i : Nat} {tokens : List Token} {u : Unmatched}
    (h : scan i tokens = .error u) :
    ∃ k, u = ⟨.unclosed, i + k⟩ ∧ IsGreatest {k | excess (tokens.drop k) < 0} k := by
  induction tokens generalizing i with
  | nil => cases h
  | cons t rest ih =>
    rw [scan] at h
    cases hrest : scan (i + 1) rest with
    | error v =>
      rw [hrest, Outcome.bind_error] at h
      cases h
      obtain ⟨k, rfl, hk⟩ := ih hrest
      refine ⟨k + 1, ?_, hk.1, fun m hm => ?_⟩
      · rw [Nat.add_assoc, Nat.add_comm 1 k]
      · cases m with
        | zero => exact Nat.zero_le _
        | succ m => exact Nat.succ_le_succ (hk.2 hm)
    | ok s =>
      rw [hrest, Outcome.bind_ok] at h
      obtain ⟨ho, hs, rfl⟩ := step_eq_error h
      -- Nothing waits, so the rest is balanced and this bracket has no partner.
      have hlen := length_positions_scan hrest
      rw [hs, List.length_nil] at hlen
      refine ⟨0, rfl, ?_, fun m hm => ?_⟩
      · show excess (t :: rest) < 0
        rw [excess_cons, excess_open ho]
        omega
      · cases m with
        | zero => exact Nat.le_refl 0
        | succ m =>
          have hneg : excess (rest.drop m) < 0 := hm
          have hnonneg := excess_drop_nonneg hrest m
          omega

/-- A closing bracket that waits with `n` others above it ends the shortest
prefix in which more than `n` are left over. -/
theorem isLeast_positions {i : Nat} {tokens : List Token} {s : Scan} (h : scan i tokens = .ok s)
    {n j : Nat} (hj : s.positions[n]? = some j) :
    ∃ k, j = i + k ∧ IsLeast {k | (n : Int) < excess (tokens.take (k + 1))} k := by
  induction tokens generalizing i s n with
  | nil =>
    cases h
    cases hj
  | cons t rest ih =>
    obtain ⟨before, hb, hstep⟩ := Outcome.bind_eq_ok_iff.mp h
    -- A closing bracket is one more above those that wait already, an opening
    -- one takes one away from above them, and `n` shifts by as much.
    rcases positions_step hstep with ⟨hc, hr⟩ | ⟨ho, j', hs⟩ | ⟨hz, hr⟩
    · rw [hr] at hj
      cases n with
      | zero =>
        cases hj
        refine ⟨0, rfl, ?_, fun _ _ => Nat.zero_le _⟩
        show 0 < excess [t]
        rw [excess_close hc]
        exact Int.one_pos
      | succ n =>
        obtain ⟨k, rfl, hk⟩ := ih hb hj
        refine ⟨k + 1, by omega, isLeast_cons hk ?_ ?_⟩ <;> rw [excess_close hc] <;> omega
    · have hj' : before.positions[n + 1]? = some j := by rwa [hs, List.getElem?_cons_succ]
      obtain ⟨k, rfl, hk⟩ := ih hb hj'
      refine ⟨k + 1, by omega, isLeast_cons hk ?_ ?_⟩ <;> rw [excess_open ho] <;> omega
    · rw [hr] at hj
      obtain ⟨k, rfl, hk⟩ := ih hb hj
      refine ⟨k + 1, by omega, isLeast_cons hk ?_ ?_⟩ <;> rw [hz] <;> omega

/-! ## What is reported -/

theorem finish_eq_error {s : Scan} {u : Unmatched} (h : finish s = .error u) :
    u.cause = .unopened ∧ s.positions[0]? = some u.index := by
  unfold finish at h
  split at h
  · next w hw =>
    cases h
    refine ⟨rfl, ?_⟩
    rw [Scan.positions, List.getElem?_map, ← List.head?_eq_getElem?, List.head?_filter, hw]
    rfl
  · cases h

/-- The outcome of bringing a list into Polish notation, by its brackets. -/
theorem ofTokens_cases (tokens : List Token) :
    (∃ i, ofTokens tokens = .error ⟨⟨.unclosed, i⟩, tokens⟩ ∧
      IsGreatest {i | excess (tokens.drop i) < 0} i) ∨
    (∃ j, ofTokens tokens = .error ⟨⟨.unopened, j⟩, tokens⟩ ∧
      (∀ i, 0 ≤ excess (tokens.drop i)) ∧ 0 < excess tokens ∧
      IsLeast {j | 0 < excess (tokens.take (j + 1))} j) ∨
    (∃ p, ofTokens tokens = .ok p ∧ (∀ i, 0 ≤ excess (tokens.drop i)) ∧ excess tokens = 0) := by
  cases hs : scan 0 tokens with
  | error u =>
    obtain ⟨k, rfl, hk⟩ := scan_eq_error hs
    rw [Nat.zero_add] at hs
    exact .inl ⟨k, by rw [ofTokens, hs]; rfl, hk⟩
  | ok s =>
    have hlen := length_positions_scan hs
    have hnonneg := excess_drop_nonneg hs
    cases hf : finish s with
    | error u =>
      obtain ⟨hcause, hindex⟩ := finish_eq_error hf
      obtain ⟨k, hk, hleast⟩ := isLeast_positions hs hindex
      rw [Nat.zero_add] at hk
      obtain ⟨cause, index⟩ := u
      cases hcause
      cases hk
      have hpos : 0 < s.positions.length := (List.getElem?_eq_some_iff.mp hindex).1
      refine .inr (.inl ⟨index, ?_, hnonneg, by omega, hleast⟩)
      rw [ofTokens, hs, Outcome.bind_ok, hf]
    | ok output =>
      have hnone := positions_eq_nil_iff.mpr (finish_eq_ok_iff.mp hf).1
      rw [hnone, List.length_nil] at hlen
      exact .inr (.inr ⟨⟨output⟩, ofTokens_of_scan hs hf, hnonneg, hlen.symm⟩)

/-- A list is a sequence of items if and only if its brackets are balanced. -/
theorem exists_consists_iff {tokens : List Token} :
    (∃ items, Consists tokens items) ↔
      (∀ i, 0 ≤ excess (tokens.drop i)) ∧ excess tokens = 0 := by
  constructor
  · rintro ⟨items, hitems⟩
    have hok := ofTokens_of_consists hitems
    rcases ofTokens_cases tokens with ⟨i, h, _⟩ | ⟨j, h, _⟩ | ⟨p, _, hbalanced⟩
    · cases h.symm.trans hok
    · cases h.symm.trans hok
    · exact hbalanced
  · rintro ⟨hnonneg, hzero⟩
    rcases ofTokens_cases tokens with ⟨i, _, hi⟩ | ⟨j, _, _, hpos, _⟩ | ⟨p, h, _⟩
    · exact absurd (hnonneg i) (Int.not_le.mpr hi.1)
    · omega
    · exact exists_consists h

/-- The bracket that is reported is one of the list. -/
theorem index_lt_of_ofTokens {tokens : List Token} {f : Fault}
    (h : ofTokens tokens = .error f) : f.index < tokens.length := by
  rcases ofTokens_cases tokens with ⟨i, hi, hgreatest⟩ | ⟨j, hj, _, hpos, hleast⟩ | ⟨p, hp, _⟩
  · cases hi.symm.trans h
    have hneg : excess (tokens.drop i) < 0 := hgreatest.1
    by_contra hle
    rw [List.drop_eq_nil_of_le (Nat.not_lt.mp hle)] at hneg
    exact absurd hneg (by decide)
  · cases hj.symm.trans h
    cases tokens with
    | nil => exact absurd hpos (by decide)
    | cons t rest =>
      -- the whole list holds a closing bracket too many
      have hwhole : 0 < excess ((t :: rest).take (rest.length + 1)) := by
        rwa [← List.length_cons, List.take_length]
      exact Nat.lt_succ_of_le (hleast.2 hwhole)
  · cases hp.symm.trans h

theorem forall_nonneg_iff {tokens : List Token} :
    (∀ i, 0 ≤ excess (tokens.drop i)) ↔ ¬ ∃ i, excess (tokens.drop i) < 0 := by
  simp only [not_exists, Int.not_lt]

/-- An opening bracket is reported if some suffix has one left over, else a
closing bracket if the list has one left over, and no list without either is
refused.  The bracket is the one with which this first shows, from the end or
from the start. -/
theorem ofTokens_error_iff (tokens : List Token) :
    ((∃ f, ofTokens tokens = .error f ∧ f.cause = .unclosed) ↔
      ∃ i, excess (tokens.drop i) < 0) ∧
    ((∃ f, ofTokens tokens = .error f ∧ f.cause = .unopened) ↔
      (∀ i, 0 ≤ excess (tokens.drop i)) ∧ 0 < excess tokens) ∧
    ((∃ p, ofTokens tokens = .ok p) ↔
      (∀ i, 0 ≤ excess (tokens.drop i)) ∧ excess tokens = 0) ∧
    ∀ f, ofTokens tokens = .error f → f.tokens = tokens ∧
      (f.cause = .unclosed → IsGreatest {i | excess (tokens.drop i) < 0} f.index) ∧
      (f.cause = .unopened → IsLeast {j | 0 < excess (tokens.take (j + 1))} f.index) := by
  rcases ofTokens_cases tokens with ⟨i, h, hi⟩ | ⟨j, h, hnonneg, hpos, hj⟩ | ⟨p, h, hnonneg, hzero⟩
  · have hsome : ¬ ∀ i, 0 ≤ excess (tokens.drop i) := fun hall =>
      forall_nonneg_iff.mp hall ⟨i, hi.1⟩
    refine ⟨iff_of_true ⟨_, h, rfl⟩ ⟨i, hi.1⟩, iff_of_false (by simp [h]) fun hc => hsome hc.1,
      iff_of_false (by simp [h]) fun hc => hsome hc.1, fun f hf => ?_⟩
    cases h.symm.trans hf
    exact ⟨rfl, fun _ => hi, fun hc => (by cases hc)⟩
  · have hnone := forall_nonneg_iff.mp hnonneg
    refine ⟨iff_of_false (by simp [h]) hnone, iff_of_true ⟨_, h, rfl⟩ ⟨hnonneg, hpos⟩,
      iff_of_false (by simp [h]) fun hc => by omega, fun f hf => ?_⟩
    cases h.symm.trans hf
    exact ⟨rfl, fun hc => (by cases hc), fun _ => hj⟩
  · have hnone := forall_nonneg_iff.mp hnonneg
    refine ⟨iff_of_false (by simp [h]) hnone, iff_of_false (by simp [h]) fun hc => by omega,
      iff_of_true ⟨p, h⟩ ⟨hnonneg, hzero⟩, fun f hf => ?_⟩
    cases h.symm.trans hf

end Polish
end WordCalc
