import Mathlib.Data.List.Chain
import WordCalc.Proofs.Counter
import WordCalc.Proofs.Evaluation
import WordCalc.Proofs.Stages

/-!
# The grammar

A sentence is worth what its tree is worth.  The converse is a count: in a stretch of
a balanced list without neighbouring operands numbers exceed operators by at most
one, and by one only if operands and operators alternate.
-/

namespace WordCalc

open Token

namespace Grammar

inductive Level where
  | expr
  | term
  | factor

inductive Derives : Level → List Token → Expr → Prop
  | term {tokens : List Token} {e : Expr} : Derives .term tokens e → Derives .expr tokens e
  | sum {a b : List Token} {t : Token} {op : Operation} {l r : Expr} :
    Derives .expr a l → t.operation? = some op → op.isAdditive = true → Derives .term b r →
      Derives .expr (a ++ t :: b) (.binary op l r)
  | factor {tokens : List Token} {e : Expr} : Derives .factor tokens e → Derives .term tokens e
  | product {a b : List Token} {t : Token} {op : Operation} {l r : Expr} :
    Derives .term a l → t.operation? = some op → op.isMultiplicative = true →
      Derives .factor b r → Derives .term (a ++ t :: b) (.binary op l r)
  | number (n : Int) : Derives .factor [Token.number n] (.number n)
  | group {o c : Token} {tokens : List Token} {e : Expr} :
    o.kind = .bracketOpen → c.kind = .bracketClose → Derives .expr tokens e →
      Derives .factor (o :: (tokens ++ [c])) e

/-! ## The value of a sentence -/

/-- Pieces that the arrangement of the level turns into the spelling of the
tree. -/
def Level.Arranges : Level → List Piece → Expr → Prop
  | .expr, pieces, e => Spells (Piece.arrange pieces) e
  | .term, pieces, e =>
    (∀ p ∈ pieces, p.isSign Operation.isAdditive = false) ∧ Spells (Piece.segment pieces) e
  | .factor, pieces, e => ∃ tokens, pieces = [.operand tokens] ∧ Spells tokens e

end Grammar

theorem Item.pieces_append (a b : List Item) :
    Item.pieces (a ++ b) = Item.pieces a ++ Item.pieces b := by
  induction a with
  | nil => rfl
  | cons item rest ih => rw [List.cons_append, Item.pieces, ih, Item.pieces, List.cons_append]

theorem Consists.append {a b : List Token} {items others : List Item} (ha : Consists a items)
    (hb : Consists b others) : Consists (a ++ b) (items ++ others) := by
  induction ha with
  | nil => exact hb
  | blank hk _ ih => exact .blank hk ih
  | number hn _ ih => exact .number hn ih
  | operator hop _ ih => exact .operator hop ih
  | group ho hc hinner _ _ ih =>
    rw [List.cons_append, List.append_assoc]
    exact .group ho hc hinner ih

namespace Grammar

theorem Derives.exists_items {level : Level} {tokens : List Token} {e : Expr}
    (h : Derives level tokens e) :
    ∃ items, Consists tokens items ∧ level.Arranges (Item.pieces items) e := by
  induction h with
  | term _ ih =>
    obtain ⟨items, hitems, hnone, hspells⟩ := ih
    refine ⟨items, hitems, ?_⟩
    rwa [Level.Arranges, Piece.arrange, Piece.gather_of_forall hnone]
  | sum _ ht hop _ ihl ihr =>
    obtain ⟨items, hitems, hl⟩ := ihl
    obtain ⟨others, hothers, hnone, hr⟩ := ihr
    refine ⟨items ++ .operator _ _ :: others, hitems.append (.operator ht hothers), ?_⟩
    rw [Item.pieces_append, Item.pieces, Item.piece, Level.Arranges, Piece.arrange,
      Piece.gather_append_operator hop _ _ hnone]
    exact .binary ht hl hr
  | factor _ ih =>
    obtain ⟨items, hitems, tokens, hpieces, hspells⟩ := ih
    refine ⟨items, hitems, ?_, ?_⟩
    · rw [hpieces]
      exact List.forall_mem_singleton.mpr rfl
    · rwa [hpieces, Piece.segment_operand]
  | @product _ _ t op _ _ _ ht hop _ ihl ihr =>
    obtain ⟨items, hitems, hnone, hl⟩ := ihl
    obtain ⟨others, hothers, tokens, hpieces, hr⟩ := ihr
    have hnadd := Operation.isAdditive_eq_false hop
    refine ⟨items ++ .operator op t :: others, hitems.append (.operator ht hothers), ?_⟩
    rw [Item.pieces_append, Item.pieces, Item.piece, hpieces]
    constructor
    · intro p hp
      rcases List.mem_append.mp hp with hp | hp
      · exact hnone p hp
      · rcases List.mem_cons.mp hp with rfl | hp
        · rw [Piece.isSign_operator, hnadd]
        · rw [List.mem_singleton.mp hp]
          rfl
    · rw [Piece.segment, Piece.gather_append_operator hop _ _ (List.forall_mem_singleton.mpr rfl),
        Piece.flat_cons]
      refine .binary ht hl ?_
      rwa [Piece.operands, Piece.flat, List.flatMap_nil, List.append_nil]
  | number n => exact ⟨_, .number rfl .nil, _, rfl, .number n⟩
  | group ho hc _ ih =>
    obtain ⟨items, hitems, hspells⟩ := ih
    exact ⟨_, .group ho hc hitems .nil, _, rfl, hspells⟩

theorem exists_polish {tokens : List Token} {e : Expr} (h : Derives .expr (visible tokens) e) :
    ∃ p, Polish.ofTokens tokens = .ok p ∧ Spells p.tokens e := by
  obtain ⟨items, hitems, hspells⟩ := h.exists_items
  exact ⟨⟨Item.polish items⟩, Polish.ofTokens_of_consists hitems.of_visible, hspells⟩

end Grammar

namespace Calculation

open Grammar

/-- The value of a sentence is that of its tree at the bottom of the stack, and so is
its fault, which names the operands in the order of the tree. -/
theorem calculate_of_derives {source : Text} {tokens : List Token} {e : Expr}
    (hlex : Lexer.tokens source = .ok tokens) (h : Derives .expr (visible tokens) e)
    (capacity : Int) :
    calculate capacity source = (e.eval capacity 0).mapError .execution ∧
    ∀ f, calculate capacity source = .error f →
      ∃ g, e.eval capacity 0 = .error g ∧ f = .execution g ∧ g.Says f.message := by
  obtain ⟨p, hp, hspells⟩ := exists_polish h
  obtain ⟨_, code, hdecode, hcalculate⟩ := exists_calculate hlex hp
  have hnone : (Program.decode code).fault = none := by rw [hdecode]
  have hexecute : Machine.execute capacity code = e.eval capacity 0 :=
    Machine.execute_of_spellsAll hdecode (.single hspells) capacity
  rw [hcalculate, hexecute]
  refine ⟨rfl, fun f hf => ?_⟩
  obtain ⟨g, hg, rfl⟩ := Outcome.mapError_eq_error_iff.mp hf
  exact ⟨g, hg, rfl,
    Machine.Fault.says_message (Machine.ne_decoding_of_execute hnone (hexecute.trans hg))⟩

/-- Three values are on the stack at once when the difference in brackets is
computed.  A difference below zero is refused with its operands. -/
theorem calculate_of_derives_nested :
    let source := "9-(4-2)*3".toList
    let difference : List Token := [.number 4, { kind := .minus }, .number 2]
    let tokens : List Token := [.number 9, { kind := .minus }, { kind := .bracketOpen }] ++
      difference ++ [{ kind := .bracketClose }, { kind := .star }, .number 3]
    let e : Expr := .binary .sub (.number 9)
      (.binary .mul (.binary .sub (.number 4) (.number 2)) (.number 3))
    let negative := "2 - 4".toList
    let shown : List Token := [.number 2, { kind := .blank }, { kind := .minus },
      { kind := .blank }, .number 4]
    Lexer.tokens source = .ok tokens ∧ Derives .expr (visible tokens) e ∧
      calculate 3 source = .ok 3 ∧
      calculate 2 source = .error (.execution (.stack .overflow)) ∧
      Lexer.tokens negative = .ok shown ∧
      Derives .expr (visible shown) (.binary .sub (.number 2) (.number 4)) ∧
      calculate 2 negative = .error (.execution (.operation (.outOfRange .sub 2 4))) ∧
      Machine.Fault.Says (.operation (.outOfRange .sub 2 4))
        "Subtraction of 2 and 4 is out of the uint256 range".toList := by
  intro source difference tokens e negative shown
  have hlex : Lexer.tokens source = .ok tokens := by decide +kernel
  have hinner : Derives .expr ([.number 4] ++ { kind := .minus } :: [.number 2])
      (.binary .sub (.number 4) (.number 2)) :=
    .sum (.term (.factor (.number 4))) rfl rfl (.factor (.number 2))
  have hproduct : Derives .term
      (({ kind := .bracketOpen } :: (difference ++ [{ kind := .bracketClose }])) ++
        { kind := .star } :: [.number 3])
      (.binary .mul (.binary .sub (.number 4) (.number 2)) (.number 3)) :=
    .product (.factor (.group rfl rfl hinner)) rfl rfl (.number 3)
  have h : Derives .expr (visible tokens) e :=
    .sum (.term (.factor (.number 9))) rfl rfl hproduct
  have hlex' : Lexer.tokens negative = .ok shown := by decide +kernel
  have h' : Derives .expr (visible shown) (.binary .sub (.number 2) (.number 4)) :=
    .sum (.term (.factor (.number 2))) rfl rfl (.factor (.number 4))
  obtain ⟨hnegative, htold⟩ := calculate_of_derives hlex' h' 2
  obtain ⟨g, hg, heq, hsays⟩ := htold _ hnegative
  have htext : Fault.message (.execution (.operation (.outOfRange .sub 2 4))) =
      "Subtraction of 2 and 4 is out of the uint256 range".toList := by decide +kernel
  rw [htext] at hsays
  cases heq
  exact ⟨hlex, h, (calculate_of_derives hlex h 3).1, (calculate_of_derives hlex h 2).1,
    hlex', h', hnegative, hsays⟩

end Calculation

namespace Token

def endsOperand (t : Token) : Prop := t.isNumber = true ∨ t.kind = .bracketClose

def startsOperand (t : Token) : Prop := t.isNumber = true ∨ t.kind = .bracketOpen

instance (t : Token) : Decidable t.endsOperand := inferInstanceAs (Decidable (_ ∨ _))

instance (t : Token) : Decidable t.startsOperand := inferInstanceAs (Decidable (_ ∨ _))

/-- No operand stands directly behind another one. -/
def Separated (tokens : List Token) : Prop :=
  tokens.IsChain fun a b => ¬ (a.endsOperand ∧ b.startsOperand)

instance (tokens : List Token) : Decidable (Separated tokens) :=
  inferInstanceAs (Decidable (tokens.IsChain _))

/-- What a token that ends an operand has behind it. -/
theorem Separated.tail_of_endsOperand {t : Token} {rest : List Token}
    (h : Separated (t :: rest)) (ht : t.endsOperand) :
    (∀ u ∈ rest.head?, ¬ u.startsOperand) ∧ Separated rest := by
  obtain ⟨hhead, hrest⟩ := List.isChain_cons.mp h
  exact ⟨fun u hu hs => hhead u hu ⟨ht, hs⟩, hrest⟩

end Token

namespace Grammar

/-! ## Counting -/

/-- Behind a sentence the tokens make a longer one. -/
def Prolongs (tokens : List Token) : Prop :=
  ∀ a e, Derives .expr a e → ∃ e', Derives .expr (a ++ tokens) e'

/-- A factor with operators and factors behind it. -/
def Alternates (tokens : List Token) : Prop :=
  ∃ f rest e, tokens = f ++ rest ∧ Derives .factor f e ∧ Prolongs rest

theorem Alternates.exists_derives {tokens : List Token} (h : Alternates tokens) :
    ∃ e, Derives .expr tokens e := by
  obtain ⟨f, rest, e, rfl, hf, hrest⟩ := h
  exact hrest f e (.term (.factor hf))

/-- A sentence can be multiplied by a factor.  The product takes in only the
last term of the sentence. -/
theorem Derives.exists_times {a b : List Token} {t : Token} {op : Operation} {l r : Expr}
    (ha : Derives .expr a l) (ht : t.operation? = some op) (hop : op.isMultiplicative = true)
    (hb : Derives .factor b r) : ∃ e, Derives .expr (a ++ t :: b) e := by
  cases ha with
  | term ha => exact ⟨_, .term (.product ha ht hop hb)⟩
  | sum ha' hu hadd hterm =>
    rw [List.append_assoc, List.cons_append]
    exact ⟨_, .sum ha' hu hadd (.product hterm ht hop hb)⟩

theorem Alternates.prolongs_cons {tokens : List Token} (h : Alternates tokens) {t : Token}
    {op : Operation} (ht : t.operation? = some op) : Prolongs (t :: tokens) := by
  obtain ⟨f, rest, e, rfl, hf, hrest⟩ := h
  intro a l ha
  have hfactor : ∃ e', Derives .expr (a ++ t :: f) e' := by
    by_cases hop : op.isAdditive = true
    · exact ⟨_, .sum ha ht hop (.factor hf)⟩
    · exact ha.exists_times ht (Operation.isMultiplicative_of_not hop) hf
  obtain ⟨e', he'⟩ := hfactor
  have := hrest _ e' he'
  rwa [List.append_assoc] at this

/-- What the surplus says of a stretch of a balanced list. -/
structure Weighed (tokens : List Token) : Prop where
  surplus_le : surplus tokens ≤ 1
  alternates : surplus tokens = 1 → Alternates tokens
  prolongs : (∀ t ∈ tokens.head?, ¬ t.startsOperand) →
    surplus tokens ≤ 0 ∧ (surplus tokens = 0 → Prolongs tokens)

namespace Weighed

theorem nil : Weighed [] where
  surplus_le := by decide
  alternates h := absurd h (by decide)
  prolongs _ := ⟨by decide, fun _ a e ha => ⟨e, by rwa [List.append_nil]⟩⟩

/-- An operand, by itself worth at most one number, in front of what does not
start with another. -/
theorem operand {f rest : List Token} {w : Int} (hw : w ≤ 1)
    (hf : w = 1 → ∃ e, Derives .factor f e) (hrest : Weighed rest)
    (hhead : ∀ t ∈ rest.head?, ¬ t.startsOperand)
    (hsurplus : surplus (f ++ rest) = w + surplus rest)
    (hstart : ∃ t ∈ (f ++ rest).head?, t.startsOperand) : Weighed (f ++ rest) := by
  obtain ⟨hle, hprolongs⟩ := hrest.prolongs hhead
  refine ⟨by omega, fun h => ?_, fun h => ?_⟩
  · obtain ⟨e, he⟩ := hf (by omega)
    exact ⟨f, rest, e, rfl, he, hprolongs (by omega)⟩
  · obtain ⟨t, ht, hs⟩ := hstart
    exact absurd hs (h t ht)

theorem operator {rest : List Token} (hrest : Weighed rest) {t : Token} {op : Operation}
    (ht : t.operation? = some op) : Weighed (t :: rest) := by
  have hsurplus := surplus_cons_operator ht rest
  have hle := hrest.surplus_le
  refine ⟨by omega, fun h => by omega, fun _ => ⟨by omega, fun h => ?_⟩⟩
  exact (hrest.alternates (by omega)).prolongs_cons ht

end Weighed

end Grammar

open Grammar in
theorem Consists.weighed {tokens : List Token} {items : List Item} (h : Consists tokens items)
    (hblank : ∀ t ∈ tokens, t.kind ≠ .blank)
    (hnumber : ∀ t ∈ tokens, t.isNumber = true → ∃ n, t = Token.number n)
    (hsep : Separated tokens) : Weighed tokens := by
  induction h with
  | nil => exact .nil
  | blank hk _ _ => exact absurd hk (hblank _ List.mem_cons_self)
  | @number t rest _ hn _ ih =>
    obtain ⟨n, rfl⟩ := hnumber t List.mem_cons_self hn
    obtain ⟨hhead, hrest⟩ := hsep.tail_of_endsOperand (.inl hn)
    refine Weighed.operand (Int.le_refl 1) (fun _ => ⟨.number n, .number n⟩)
      (ih (List.forall_mem_cons.mp hblank).2 (List.forall_mem_cons.mp hnumber).2 hrest) hhead ?_
      ⟨Token.number n, rfl, .inl hn⟩
    rw [List.singleton_append, surplus_cons_number hn]
    omega
  | operator hop _ ih =>
    have hrest := (List.isChain_cons.mp hsep).2
    exact (ih (List.forall_mem_cons.mp hblank).2 (List.forall_mem_cons.mp hnumber).2
      hrest).operator hop
  | @group o c inner rest _ _ ho hc _ _ ihinner ihrest =>
    have hchain := List.isChain_append.mp (List.isChain_cons.mp hsep).2
    obtain ⟨hhead, hrest⟩ := Separated.tail_of_endsOperand hchain.2.1 (.inr hc)
    have hin : ∀ t ∈ inner, t ∈ o :: (inner ++ c :: rest) := fun t ht =>
      List.mem_cons_of_mem o (List.mem_append_left _ ht)
    have hout : ∀ t ∈ rest, t ∈ o :: (inner ++ c :: rest) := fun t ht =>
      List.mem_cons_of_mem o (List.mem_append_right _ (List.mem_cons_of_mem c ht))
    have hinner : Weighed inner := ihinner (fun t ht => hblank t (hin t ht))
      (fun t ht => hnumber t (hin t ht)) hchain.1
    have hafter : Weighed rest := ihrest (fun t ht => hblank t (hout t ht))
      (fun t ht => hnumber t (hout t ht)) hrest
    have hsplit : o :: (inner ++ c :: rest) = o :: (inner ++ [c]) ++ rest := by
      rw [List.cons_append, List.append_assoc, List.singleton_append]
    rw [hsplit]
    refine Weighed.operand hinner.surplus_le (fun h => ?_) hafter hhead ?_ ⟨o, rfl, .inr ho⟩
    · obtain ⟨e, he⟩ := (hinner.alternates h).exists_derives
      exact ⟨e, .group ho hc he⟩
    · rw [← hsplit, surplus_cons_of_not_survives (survives_eq_false_iff.mpr (.inl ho)),
        surplus_append, surplus_cons_of_not_survives (survives_eq_false_iff.mpr (.inr (.inl hc)))]

namespace Calculation

open Grammar

/-- Where no two operands are neighbours, only sentences have a value. -/
theorem exists_derives_of_calculate {source : Text} {tokens : List Token}
    (hlex : Lexer.tokens source = .ok tokens) (hsep : Separated (visible tokens))
    {capacity n : Int} (h : calculate capacity source = .ok n) :
    ∃ e, Derives .expr (visible tokens) e := by
  obtain ⟨p, hp⟩ := exists_ofTokens_of_calculate hlex h
  obtain ⟨items, hitems⟩ := Polish.exists_consists hp
  obtain ⟨hpolish, code, hdecode, hcalculate⟩ := exists_calculate hlex hp
  rw [hcalculate, Outcome.mapError_eq_ok_iff] at h
  obtain ⟨e, rest, htrees⟩ := Machine.exists_spellsAll_of_execute hdecode hpolish h
  have hblank : ∀ t ∈ visible tokens, t.kind ≠ .blank := by
    intro t ht
    exact bne_iff_ne.mp (List.mem_filter.mp ht).2
  have hnumber : ∀ t ∈ visible tokens, t.isNumber = true → ∃ n, t = Token.number n := by
    intro t ht hn
    have hlexed := Lexer.isLexed_of_tokens hlex t (List.mem_filter.mp ht).1
    obtain ⟨n, hn, _⟩ := hlexed.exists_number hn
    exact ⟨n, hn⟩
  have hweighed := hitems.visible.weighed hblank hnumber hsep
  -- the program has a tree for the value, so there is one number more
  have hsurplus : surplus (visible tokens) = rest.length + 1 := by
    rw [surplus_visible, ← surplus_filter (fun t ht => ht) tokens,
      ← surplus_perm (Polish.ofTokens_perm hp), htrees.surplus_eq, List.length_cons]
    rfl
  have hle := hweighed.surplus_le
  exact (hweighed.alternates (by omega)).exists_derives

theorem exists_derives_of_calculate_quotient :
    let source := "(7 + 1)/ 2".toList
    let tokens : List Token := [{ kind := .bracketOpen }, .number 7, { kind := .blank },
      { kind := .plus }, { kind := .blank }, .number 1, { kind := .bracketClose },
      { kind := .slash }, { kind := .blank }, .number 2]
    Lexer.tokens source = .ok tokens ∧ Separated (visible tokens) ∧
      calculate 3 source = .ok 4 ∧ ∃ e, Derives .expr (visible tokens) e := by
  intro source tokens
  have hlex : Lexer.tokens source = .ok tokens := by decide +kernel
  have hsep : Separated (visible tokens) := by decide
  have hvalue : calculate 3 source = .ok 4 := by decide +kernel
  exact ⟨hlex, hsep, hvalue, exists_derives_of_calculate hlex hsep hvalue⟩

end Calculation
end WordCalc
