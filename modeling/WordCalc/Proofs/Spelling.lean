import WordCalc.Proofs.Expression
import WordCalc.Proofs.Tokens

namespace WordCalc

/-- The tokens are the tree in Polish notation. -/
inductive Spells : List Token → Expr → Prop
  | number (n : Int) : Spells [Token.number n] (.number n)
  | binary {t : Token} {op : Operation} {a b : List Token} {l r : Expr} :
    t.operation? = some op → Spells a l → Spells b r → Spells (t :: (a ++ b)) (.binary op l r)

/-- The tokens are the trees in Polish notation, one after another. -/
inductive SpellsAll : List Token → List Expr → Prop
  | nil : SpellsAll [] []
  | cons {a b : List Token} {e : Expr} {rest : List Expr} :
    Spells a e → SpellsAll b rest → SpellsAll (a ++ b) (e :: rest)

namespace SpellsAll

theorem single {tokens : List Token} {e : Expr} (h : Spells tokens e) : SpellsAll tokens [e] := by
  have := cons h nil
  rwa [List.append_nil] at this

/-- An operator in front joins the first two trees. -/
theorem join {t : Token} {op : Operation} (ht : t.operation? = some op) {tokens : List Token}
    {l r : Expr} {rest : List Expr} (h : SpellsAll tokens (l :: r :: rest)) :
    SpellsAll (t :: tokens) (.binary op l r :: rest) := by
  cases h with
  | cons hl h =>
    cases h with
    | cons hr hrest =>
      have := cons (.binary ht hl hr) hrest
      rwa [List.cons_append, List.append_assoc] at this

end SpellsAll

theorem Spells.surplus_eq {tokens : List Token} {e : Expr} (h : Spells tokens e) :
    Token.surplus tokens = 1 := by
  induction h with
  | number n => rfl
  | binary ht _ _ ihl ihr =>
    rw [Token.surplus_cons_operator ht, Token.surplus_append, ihl, ihr]
    rfl

theorem SpellsAll.surplus_eq {tokens : List Token} {trees : List Expr}
    (h : SpellsAll tokens trees) : Token.surplus tokens = trees.length := by
  induction h with
  | nil => rfl
  | cons he _ ih =>
    rw [Token.surplus_append, he.surplus_eq, ih, List.length_cons]
    omega

end WordCalc
