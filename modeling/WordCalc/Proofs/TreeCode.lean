import WordCalc.Proofs.Encoding
import WordCalc.Proofs.Grammar

/-!
# The code of a tree

A sentence is compiled to the code of its tree, and no other tree has that code: no
spelling of a tree is the beginning of a longer one.
-/

namespace WordCalc

namespace Expr

def code : Expr → List UInt8
  | .number n => Opcode.push.byte :: Word.bigEndian Word.size n.toNat
  | .binary op l r => r.code ++ l.code ++ [(Opcode.operation op).byte]

end Expr

/-! ## Trees and their spelling -/

/-- Two spellings that start the same text are one. -/
theorem Spells.unique_of_append {a b x y : List Token} {e e' : Expr} (ha : Spells a e)
    (hb : Spells b e') (h : a ++ x = b ++ y) : e = e' ∧ x = y := by
  induction ha generalizing b x y e' with
  | number n =>
    cases hb with
    | number m =>
      obtain ⟨hn, hrest⟩ := List.cons.inj h
      cases hn
      exact ⟨rfl, hrest⟩
    | binary ht _ _ =>
      obtain ⟨rfl, _⟩ := List.cons.inj h
      cases ht
  | binary ht _ _ ihl ihr =>
    cases hb with
    | number m =>
      obtain ⟨rfl, _⟩ := List.cons.inj h
      cases ht
    | binary hu hl hr =>
      rw [List.cons_append, List.cons_append, List.append_assoc, List.append_assoc] at h
      obtain ⟨rfl, hrest⟩ := List.cons.inj h
      rw [ht] at hu
      cases hu
      obtain ⟨rfl, hright⟩ := ihl hl hrest
      obtain ⟨rfl, hxy⟩ := ihr hr hright
      exact ⟨rfl, hxy⟩

theorem Spells.unique {tokens : List Token} {e e' : Expr} (h : Spells tokens e)
    (h' : Spells tokens e') : e = e' :=
  (h.unique_of_append h' (x := []) (y := []) rfl).1

namespace Program

/-- Behind each other the tokens have their codes in the opposite order. -/
theorem ofPolish_append {a b : List Token} {x y : List UInt8} (ha : ofPolish ⟨a⟩ = .ok x)
    (hb : ofPolish ⟨b⟩ = .ok y) : ofPolish ⟨a ++ b⟩ = .ok (y ++ x) := by
  obtain ⟨xs, hxs, rfl⟩ := Outcome.map_eq_ok_iff.mp ha
  obtain ⟨ys, hys, rfl⟩ := Outcome.map_eq_ok_iff.mp hb
  rw [ofPolish, List.reverse_append, List.mapM_append, hys, hxs]
  show Except.ok (ys ++ xs).flatten = _
  rw [List.flatten_append]

theorem ofPolish_singleton {t : Token} {bytes : List UInt8} (h : ofToken t = .ok bytes) :
    ofPolish ⟨[t]⟩ = .ok bytes := by
  rw [ofPolish, List.reverse_singleton, List.mapM_cons, h]
  show Except.ok [bytes].flatten = _
  rw [List.flatten_singleton]

theorem ofPolish_of_spells {tokens : List Token} {e : Expr} (h : Spells tokens e)
    (hp : ∀ t ∈ tokens, t.IsPolish) : ofPolish ⟨tokens⟩ = .ok e.code := by
  induction h with
  | number n =>
    rcases hp _ List.mem_cons_self with hop | ⟨m, hm, hfits⟩
    · cases hop
    · cases hm
      apply ofPolish_singleton
      show (Instruction.push n).bytes.mapError EncodingFault.word = _
      rw [Instruction.bytes, Word.encode_of_fits hfits]
      rfl
  | @binary t op a b l r ht _ _ ihl ihr =>
    have hoperation : ofToken t = .ok [(Opcode.operation op).byte] := by
      rw [ofToken, ofToken?_of_operation? ht]
      rfl
    obtain ⟨_, hrest⟩ := List.forall_mem_cons.mp hp
    obtain ⟨hleft, hright⟩ := List.forall_mem_append.mp hrest
    exact ofPolish_append (ofPolish_singleton hoperation)
      (ofPolish_append (ihl hleft) (ihr hright))

end Program

theorem Token.IsLexed.isPlain {t : Token} (h : t.IsLexed) (hs : t.survives = true) : t.IsPlain := by
  rcases h with hnumber | ⟨hn, hv⟩
  · exact .inr hnumber
  · rw [survives, hn, Bool.false_or] at hs
    exact .inl ⟨hs, hv⟩

namespace Calculation

open Grammar
open Token (visible)

/-- The stages of a sentence up to its code. -/
theorem exists_trace_of_derives {source : Text} {tokens : List Token} {e : Expr}
    (hlex : Lexer.tokens source = .ok tokens) (h : Derives .expr (visible tokens) e) :
    ∃ trace, compile source = .ok trace ∧ trace.code = e.code ∧
      Program.ofPolish trace.polish = .ok trace.code ∧
      (∀ t ∈ trace.polish.tokens, t.IsPlain) ∧ Spells trace.polish.tokens e := by
  obtain ⟨p, hp, hspells⟩ := exists_polish h
  have hplain : ∀ t ∈ p.tokens, t.IsPlain := by
    intro t ht
    obtain ⟨hlexed, hsurvives⟩ := isLexed_of_ofTokens hlex hp t ht
    exact hlexed.isPlain hsurvives
  have hcode : Program.ofPolish p = .ok e.code :=
    Program.ofPolish_of_spells hspells fun t ht => (hplain t ht).isPolish
  exact ⟨_, compile_of_stages hlex hp hcode, rfl, hcode, hplain, hspells⟩

/-- Sentences have the same code exactly if they have the same tree. -/
theorem compile_eq_iff_of_derives {source source' : Text} {tokens tokens' : List Token}
    {e e' : Expr} (hlex : Lexer.tokens source = .ok tokens)
    (h : Derives .expr (visible tokens) e) (hlex' : Lexer.tokens source' = .ok tokens')
    (h' : Derives .expr (visible tokens') e') :
    ∃ trace trace', compile source = .ok trace ∧ compile source' = .ok trace' ∧
      trace.code = e.code ∧ trace'.code = e'.code ∧ (trace.code = trace'.code ↔ e = e') := by
  obtain ⟨trace, htrace, hcode, hpolish, hplain, hspells⟩ := exists_trace_of_derives hlex h
  obtain ⟨trace', htrace', hcode', hpolish', hplain', hspells'⟩ :=
    exists_trace_of_derives hlex' h'
  refine ⟨trace, trace', htrace, htrace', hcode, hcode', fun heq => ?_, fun heq => ?_⟩
  · rw [heq] at hpolish
    have hsame := Program.eq_of_ofPolish_eq hplain hplain' hpolish hpolish'
    rw [hsame] at hspells
    exact hspells.unique hspells'
  · rw [hcode, hcode', heq]

/-- Brackets that the grammar does not need, blanks and a leading zero change
nothing, and the brackets around the second difference do. -/
theorem compile_eq_iff_of_derives_differences :
    let minus : Token := { kind := .minus }
    let o : Token := { kind := .bracketOpen }
    let c : Token := { kind := .bracketClose }
    let blank : Token := { kind := .blank }
    let plain : List Token := [.number 9, minus, .number 4, minus, .number 2]
    let bracketed : List Token := [o, o, .number 9, c, blank, minus, .number 4, c, minus, .number 2]
    let grouped : List Token := [.number 9, minus, o, .number 4, minus, .number 2, c]
    let left : Expr := .binary .sub (.binary .sub (.number 9) (.number 4)) (.number 2)
    let right : Expr := .binary .sub (.number 9) (.binary .sub (.number 4) (.number 2))
    (Lexer.tokens "9-4-2".toList = .ok plain ∧ Derives .expr (visible plain) left) ∧
    (Lexer.tokens "((9) -04)-2".toList = .ok bracketed ∧
      Derives .expr (visible bracketed) left) ∧
    (Lexer.tokens "9-(4-2)".toList = .ok grouped ∧ Derives .expr (visible grouped) right) ∧
    (∃ trace trace', compile "9-4-2".toList = .ok trace ∧
      compile "((9) -04)-2".toList = .ok trace' ∧ trace.code = trace'.code) ∧
    ∃ trace trace', compile "9-4-2".toList = .ok trace ∧
      compile "9-(4-2)".toList = .ok trace' ∧ trace.code ≠ trace'.code := by
  intro minus o c blank plain bracketed grouped left right
  have hplain : Lexer.tokens "9-4-2".toList = .ok plain := by decide +kernel
  have hbracketed : Lexer.tokens "((9) -04)-2".toList = .ok bracketed := by decide +kernel
  have hgrouped : Lexer.tokens "9-(4-2)".toList = .ok grouped := by decide +kernel
  have hnine : Derives .factor (o :: ([.number 9] ++ [c])) (.number 9) :=
    .group rfl rfl (.term (.factor (.number 9)))
  have hfirst : Derives .expr ([.number 9] ++ minus :: [.number 4])
      (.binary .sub (.number 9) (.number 4)) :=
    .sum (.term (.factor (.number 9))) rfl rfl (.factor (.number 4))
  have hinner : Derives .expr ((o :: ([.number 9] ++ [c])) ++ minus :: [.number 4])
      (.binary .sub (.number 9) (.number 4)) :=
    .sum (.term (.factor hnine)) rfl rfl (.factor (.number 4))
  have hsecond : Derives .expr ([.number 4] ++ minus :: [.number 2])
      (.binary .sub (.number 4) (.number 2)) :=
    .sum (.term (.factor (.number 4))) rfl rfl (.factor (.number 2))
  have h : Derives .expr (visible plain) left := .sum hfirst rfl rfl (.factor (.number 2))
  have h' : Derives .expr (visible bracketed) left :=
    .sum (.term (.factor (.group rfl rfl hinner))) rfl rfl (.factor (.number 2))
  have h'' : Derives .expr (visible grouped) right :=
    .sum (.term (.factor (.number 9))) rfl rfl (.factor (.group rfl rfl hsecond))
  refine ⟨⟨hplain, h⟩, ⟨hbracketed, h'⟩, ⟨hgrouped, h''⟩, ?_, ?_⟩
  · obtain ⟨trace, trace', htrace, htrace', _, _, hiff⟩ :=
      compile_eq_iff_of_derives hplain h hbracketed h'
    exact ⟨trace, trace', htrace, htrace', hiff.mpr rfl⟩
  · obtain ⟨trace, trace', htrace, htrace', _, _, hiff⟩ :=
      compile_eq_iff_of_derives hplain h hgrouped h''
    exact ⟨trace, trace', htrace, htrace', fun heq => absurd (hiff.mp heq) (by decide)⟩

end Calculation
end WordCalc
