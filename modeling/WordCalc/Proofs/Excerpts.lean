import WordCalc.Proofs.Slices

/-!
# Where the caret stands under a text

The dots in front of an excerpt move what is behind them by as much as they are
long, so the caret is right wherever the excerpt begins.
-/

namespace WordCalc

namespace Excerpt

variable {source : Text} {index : Nat}

/-- What stands on the line for a part that was cut off. -/
def dots (cut : Text) : Text := if cut = [] then [] else "...".toList

theorem length_dots_le (cut : Text) : (dots cut).length ≤ 3 := by
  unfold dots
  split <;> decide

theorem dots_eq_ite {cut : Text} {p : Prop} [Decidable p] (h : p ↔ 0 < cut.length) :
    dots cut = if p then ellipsis else [] := by
  by_cases hcut : cut = []
  · rw [dots, if_pos hcut, if_neg (by simp [h, hcut])]
  · rw [dots, if_neg hcut, if_pos (h.mpr (List.length_pos_iff.mpr hcut))]
    rfl

/-- Dots in place of what is around a stretch move the positions in it. -/
theorem getElem?_dots {front window : Text} (back : Text) (hfront : front.length ≤ index)
    (hwindow : index < front.length + window.length) :
    (dots front ++ (window ++ dots back))[(dots front).length + (index - front.length)]? =
      (front ++ (window ++ back))[index]? := by
  rw [List.getElem?_append_right (Nat.le_add_right _ _), Nat.add_sub_cancel_left,
    List.getElem?_append_right hfront, List.getElem?_append_left (by omega),
    List.getElem?_append_left (by omega)]

/-! ## The stretch around an index -/

def front (source : Text) (index : Nat) : Text := source.take (start index)

def back (source : Text) (index : Nat) : Text := source.drop (stop source index)

theorem start_le (index : Nat) : start index ≤ index := Nat.sub_le index reach

theorem stop_le (source : Text) (index : Nat) : stop source index ≤ source.length :=
  Nat.min_le_left _ _

theorem stop_sub_start_le (source : Text) (index : Nat) :
    stop source index - start index ≤ 20 := by
  unfold stop start reach
  omega

theorem length_window (source : Text) (index : Nat) :
    (window source index).length = stop source index - start index := by
  rw [window, List.length_drop, List.length_take, Nat.min_eq_left (stop_le source index)]

section Within

variable (h : index < source.length)

include h

theorem lt_stop : index < stop source index := by
  unfold stop reach
  omega

theorem length_front : (front source index).length = start index := by
  rw [front, List.length_take, Nat.min_eq_left]
  exact Nat.le_trans (start_le index) (Nat.le_of_lt h)

theorem front_append_window :
    front source index ++ (window source index ++ back source index) = source := by
  have hstart : start index ≤ stop source index :=
    Nat.le_trans (start_le index) (Nat.le_of_lt (lt_stop h))
  have htake : front source index ++ window source index = source.take (stop source index) := by
    rw [front, window, List.drop_take, ← List.take_add, Nat.add_sub_cancel' hstart]
  rw [← List.append_assoc, htake, back, List.take_append_drop]

theorem dots_front : dots (front source index) = if 0 < start index then ellipsis else [] :=
  dots_eq_ite (by rw [length_front h])

theorem line_eq : line source index =
    dots (front source index) ++ (window source index ++ dots (back source index)) := by
  have hback : dots (back source index) =
      if stop source index < source.length then ellipsis else [] := by
    refine dots_eq_ite ?_
    rw [back, List.length_drop]
    omega
  rw [dots_front h, hback, line, List.append_assoc]

theorem column_eq : column index =
    (dots (front source index)).length + (index - (front source index).length) := by
  rw [dots_front h, length_front h, column, apply_ite List.length, List.length_nil, Nat.add_comm]

theorem length_line_le : (line source index).length ≤ 26 := by
  have hfront := length_dots_le (front source index)
  have hback := length_dots_le (back source index)
  have hwindow := stop_sub_start_le source index
  rw [line_eq h, List.length_append, List.length_append, length_window]
  omega

theorem getElem?_column : (line source index)[column index]? = source[index]? := by
  have hlt := lt_stop h
  have hstart := start_le index
  rw [line_eq h, column_eq h, getElem?_dots, front_append_window h]
  · rw [length_front h]
    exact start_le index
  · rw [length_front h, length_window]
    omega

end Within

end Excerpt

theorem Literal.mem_of_mem_abridged {limit : Int} {literal : Text} {c : Char}
    (h : c ∈ abridged limit literal) : c ∈ literal ∨ c = '.' := by
  unfold abridged at h
  split at h
  · exact .inl h
  · simp only [List.mem_append] at h
    rcases h with (hstart | hdots) | hend
    · exact .inl (List.mem_of_mem_take hstart)
    · exact .inr (by simpa using hdots)
    · exact .inl (List.mem_of_mem_drop hend)

namespace Lexer

/-- What a fault names, as it stands in the source text. -/
def Cause.text : Cause → Text
  | .character c => [c]
  | .literal digits => digits

namespace Refused

variable {source : Text} {cause : Cause}

theorem head?_text (h : Refused source cause) :
    ∃ c, cause.text.head? = some c ∧ source.head? = some c := by
  cases h with
  | @character c _ _ _ _ => exact ⟨c, rfl, rfl⟩
  | @literal c _ _ _ => exact ⟨c, rfl, rfl⟩

/-- A line feed is blank and no digit, so what a fault says is one line. -/
theorem newline_notMem_summary (h : Refused source cause) : '\n' ∉ cause.summary := by
  intro hmem
  cases h with
  | @character c _ _ _ hblank =>
    rcases List.mem_append.mp hmem with htext | hshown
    · exact absurd htext (by decide)
    · have hfeed : Text.isBlank '\n' = true := by decide
      rw [List.mem_singleton.mp hshown, hblank] at hfeed
      cases hfeed
  | @literal c rest hc _ =>
    rcases List.mem_append.mp hmem with htext | hshown
    · exact absurd htext (by decide)
    · rcases Literal.mem_of_mem_abridged hshown with hdigit | hdot
      · have hfeed : Text.isAnyDigit '\n' = false := by decide
        rw [isAnyDigit_of_mem_literal hc rest '\n' hdigit] at hfeed
        cases hfeed
      · exact absurd hdot (by decide)

end Refused

open Excerpt (dots)

/-- A fault lies within the text, and its report shows it: over the caret stands
the character at its index, which is the first one of what the fault names, in a
stretch of the text that has dots exactly at the ends that were cut off. -/
theorem message_points_at_fault {source : Text} {f : Fault} (h : tokens source = .error f) :
    f.index < source.length ∧ ∃ headline excerpt column c front window back,
      f.message = headline ++ '\n' :: (excerpt ++ '\n' :: (List.replicate column ' ' ++ ['^'])) ∧
      headline = "[Tokenizer error] ".toList ++ f.cause.summary ∧ '\n' ∉ headline ∧
      excerpt[column]? = some c ∧ source[f.index]? = some c ∧ f.cause.text.head? = some c ∧
      source = front ++ (window ++ back) ∧ excerpt = dots front ++ (window ++ dots back) ∧
      front.length ≤ f.index ∧ f.index < front.length + window.length ∧ excerpt.length ≤ 26 := by
  obtain ⟨hsource, _, _, hrefused⟩ := exists_of_tokens_eq_error h
  obtain ⟨c, hnamed, hc⟩ := hrefused.head?_text
  rw [List.head?_drop] at hc
  have hindex : f.index < source.length := (List.getElem?_eq_some_iff.mp hc).1
  have hfront := Excerpt.length_front hindex
  have hwindow := Excerpt.length_window source f.index
  have hstart := Excerpt.start_le f.index
  have hstop := Excerpt.lt_stop hindex
  refine ⟨hindex, _, Excerpt.line source f.index, Excerpt.column f.index, c,
    Excerpt.front source f.index, Excerpt.window source f.index, Excerpt.back source f.index,
    ?_, rfl, ?_, ?_, hc, hnamed, ?_, ?_, ?_, ?_, ?_⟩
  · rw [Fault.message, hsource]
    rfl
  · rw [List.mem_append, not_or]
    exact ⟨by decide, hrefused.newline_notMem_summary⟩
  · rw [Excerpt.getElem?_column hindex, hc]
  · exact (Excerpt.front_append_window hindex).symm
  · exact Excerpt.line_eq hindex
  · omega
  · omega
  · exact Excerpt.length_line_le hindex

/-- A sign that is none, far from both ends. -/
theorem message_points_at_fault_caret :
    let source := "12345678 + 12345678 ^ 1 + 12345678".toList
    let f : Fault := ⟨.character '^', source, 20⟩
    tokens source = .error f ∧ ∃ headline excerpt column,
      f.message = headline ++ '\n' :: (excerpt ++ '\n' :: (List.replicate column ' ' ++ ['^'])) ∧
        excerpt[column]? = some '^' ∧ excerpt.length ≤ 26 := by
  intro source f
  have h : tokens source = .error f := by decide +kernel
  obtain ⟨_, headline, excerpt, column, c, _, _, _, hmessage, _, _, hcaret, _, hnamed, _, _, _, _,
    hlength⟩ := message_points_at_fault h
  obtain rfl : '^' = c := Option.some.inj hnamed
  exact ⟨h, headline, excerpt, column, hmessage, hcaret, hlength⟩

end Lexer
end WordCalc
