import Mathlib.Data.List.Basic
import WordCalc.Operation

namespace WordCalc.Token

def operation? (t : Token) : Option Operation := Operation.ofKind? t.kind

def isNumber (t : Token) : Bool := t.kind == .number

def isOperator (t : Token) : Bool := t.operation?.isSome

def survives (t : Token) : Bool := t.isNumber || t.isOperator

/-- An operator, or a number that is a word. -/
def IsPolish (t : Token) : Prop := t.isOperator ∨ ∃ n, t = number n ∧ Word.Fits n

def visible (tokens : List Token) : List Token := tokens.filter fun t => t.kind != .blank

theorem isOperator_of_operation? {t : Token} {op : Operation} (h : t.operation? = some op) :
    t.isOperator = true := by
  rw [isOperator, h]
  rfl

theorem isNumber_eq_false_of_operation? {t : Token} {op : Operation}
    (h : t.operation? = some op) : t.isNumber = false := by
  obtain ⟨kind, value⟩ := t
  cases kind with
  | number => cases h
  | _ => rfl

theorem isOperator_eq_false_of_isNumber {t : Token} (h : t.isNumber = true) :
    t.isOperator = false := by
  have hk : t.kind = .number := beq_iff_eq.mp h
  rw [isOperator, operation?, hk]
  rfl

theorem survives_eq_false_iff {t : Token} : t.survives = false ↔
    t.kind = .bracketOpen ∨ t.kind = .bracketClose ∨ t.kind = .blank := by
  unfold survives isNumber isOperator operation?
  cases t.kind <;> decide

theorem survives_of_isNumber {t : Token} (h : t.isNumber = true) : t.survives = true := by
  rw [survives, h, Bool.true_or]

theorem survives_of_operation? {t : Token} {op : Operation} (h : t.operation? = some op) :
    t.survives = true := by
  rw [survives, isOperator_of_operation? h, Bool.or_true]

theorem kind_ne_blank_of_survives {t : Token} (h : t.survives = true) : t.kind ≠ .blank := by
  intro hk
  rw [survives_eq_false_iff.mpr (.inr (.inr hk))] at h
  cases h

theorem visible_cons_blank {t : Token} (h : t.kind = .blank) (rest : List Token) :
    visible (t :: rest) = visible rest :=
  List.filter_cons_of_neg (by simp [h])

theorem visible_cons {t : Token} (h : t.kind ≠ .blank) (rest : List Token) :
    visible (t :: rest) = t :: visible rest :=
  List.filter_cons_of_pos (by simp [h])

/-! ## Numbers against operators -/

/-- How many more numbers than operators there are. -/
def surplus (tokens : List Token) : Int :=
  (tokens.countP isNumber : Int) - tokens.countP isOperator

theorem surplus_append (a b : List Token) : surplus (a ++ b) = surplus a + surplus b := by
  unfold surplus
  rw [List.countP_append, List.countP_append]
  omega

theorem surplus_cons_number {t : Token} (h : t.isNumber = true) (rest : List Token) :
    surplus (t :: rest) = surplus rest + 1 := by
  unfold surplus
  rw [List.countP_cons_of_pos h,
    List.countP_cons_of_neg (by simp [isOperator_eq_false_of_isNumber h])]
  omega

theorem surplus_cons_operator {t : Token} {op : Operation} (h : t.operation? = some op)
    (rest : List Token) : surplus (t :: rest) = surplus rest - 1 := by
  unfold surplus
  rw [List.countP_cons_of_neg (by simp [isNumber_eq_false_of_operation? h]),
    List.countP_cons_of_pos (isOperator_of_operation? h)]
  omega

theorem surplus_filter {q : Token → Bool} (hq : ∀ t, t.survives = true → q t = true)
    (tokens : List Token) : surplus (tokens.filter q) = surplus tokens := by
  have hn : (fun t => isNumber t && q t) = isNumber := by
    funext t
    cases h : t.isNumber with
    | false => rfl
    | true => exact hq t (survives_of_isNumber h)
  have ho : (fun t => isOperator t && q t) = isOperator := by
    funext t
    cases h : t.isOperator with
    | false => rfl
    | true => exact hq t (by rw [survives, h, Bool.or_true])
  rw [surplus, List.countP_filter, List.countP_filter, hn, ho, surplus]

/-- Brackets and blanks count for nothing. -/
theorem surplus_cons_of_not_survives {t : Token} (h : t.survives = false) (rest : List Token) :
    surplus (t :: rest) = surplus rest := by
  rw [← surplus_filter (fun t ht => ht) (t :: rest), List.filter_cons_of_neg (by simp [h]),
    surplus_filter (fun t ht => ht)]

theorem surplus_visible (tokens : List Token) : surplus (visible tokens) = surplus tokens :=
  surplus_filter (fun _ ht => bne_iff_ne.mpr (kind_ne_blank_of_survives ht)) tokens

theorem surplus_perm {a b : List Token} (h : a.Perm b) : surplus a = surplus b := by
  unfold surplus
  rw [h.countP_eq, h.countP_eq]

end WordCalc.Token
