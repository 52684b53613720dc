import Mathlib.Tactic.Common
import WordCalc.Text.Basic

namespace WordCalc.Text

/-! ## On one line -/

theorem spaced_cons (t : Text) (after : List Text) :
    spaced (t :: after) = t ++ after.flatMap (' ' :: ·) := by
  induction after generalizing t with
  | nil => rw [spaced, List.intercalate_singleton, List.flatMap_nil, List.append_nil]
  | cons u after ih =>
    rw [spaced, List.intercalate_cons_cons, List.append_assoc, List.flatMap_cons]
    exact congrArg (t ++ ' ' :: ·) (ih u)

theorem spaced_cons_of_ne_nil (t : Text) {after : List Text} (h : after ≠ []) :
    spaced (t :: after) = (t ++ [' ']) ++ spaced after := by
  rw [spaced, List.intercalate_cons_of_ne_nil h]
  rfl

/-- A line as it looks from one of its parts. -/
theorem spaced_append_cons (before : List Text) (t : Text) (after : List Text) :
    spaced (before ++ t :: after) =
      before.flatMap (· ++ [' ']) ++ (t ++ after.flatMap (' ' :: ·)) := by
  induction before with
  | nil => exact spaced_cons t after
  | cons u before ih =>
    rw [List.cons_append, spaced_cons_of_ne_nil u (by simp), ih, List.flatMap_cons]
    simp only [List.append_assoc]

theorem spaced_append_space {parts : List Text} (h : parts ≠ []) :
    spaced parts ++ [' '] = parts.flatMap (· ++ [' ']) := by
  induction parts with
  | nil => exact absurd rfl h
  | cons t rest ih =>
    cases rest with
    | nil => rw [spaced, List.intercalate_singleton, List.flatMap_singleton]
    | cons u more =>
      have hne : u :: more ≠ [] := List.cons_ne_nil u more
      rw [spaced_cons_of_ne_nil t hne, List.append_assoc, ih hne]
      rfl

theorem mem_spaced {parts : List Text} {c : Char} (h : c ∈ spaced parts) :
    c = ' ' ∨ ∃ part ∈ parts, c ∈ part := by
  cases parts with
  | nil => cases h
  | cons t after =>
    rw [spaced_cons, List.mem_append, List.mem_flatMap] at h
    rcases h with ht | ⟨part, hpart, hc⟩
    · exact .inr ⟨t, List.mem_cons_self, ht⟩
    · rcases List.mem_cons.mp hc with rfl | hc
      · exact .inl rfl
      · exact .inr ⟨part, List.mem_cons_of_mem t hpart, hc⟩

/-! ## On lines of their own -/

/-- The lines of a text that has no line end after the last of them. -/
def rows (t : Text) : List Text := if t = [] then [] else t.splitOn '\n'

theorem rows_stacked {parts : List Text} (h : ∀ part ∈ parts, part ≠ [] ∧ '\n' ∉ part) :
    rows (stacked parts) = parts := by
  cases parts with
  | nil => rfl
  | cons part more =>
    have hne : stacked (part :: more) ≠ [] := by
      cases more with
      | nil =>
        rw [stacked, List.intercalate_singleton]
        exact (h part List.mem_cons_self).1
      | cons next more =>
        rw [stacked, List.intercalate_cons_cons]
        simp
    rw [rows, if_neg hne]
    exact List.splitOn_intercalate '\n' (fun line hline => (h line hline).2) (List.cons_ne_nil _ _)

end WordCalc.Text
