import WordCalc.Proofs.Spelling

/-!
# Grouping

What a balanced token list means in Polish notation, by splitting it at its additive
operators and each segment at its multiplicative ones.  The split looks at a whole
list and a scan sees one piece at a time, so `layout` is the same arrangement by
recursion on the pieces.
-/

namespace WordCalc

namespace Operation

def isAdditive : Operation → Bool
  | .add | .sub => true
  | .mul | .div => false

def isMultiplicative (op : Operation) : Bool := !op.isAdditive

theorem isMultiplicative_of_not {op : Operation} (h : ¬ op.isAdditive = true) :
    op.isMultiplicative = true := by
  rw [isMultiplicative, Bool.eq_false_iff.mpr h]
  rfl

theorem isAdditive_eq_false {op : Operation} (h : op.isMultiplicative = true) :
    op.isAdditive = false := by
  rwa [isMultiplicative, Bool.not_eq_true'] at h

end Operation

inductive Item where
  | number (t : Token)
  | operator (op : Operation) (t : Token)
  | group (content : List Item)

/-- The token list is balanced and the items are what it consists of. -/
inductive Consists : List Token → List Item → Prop
  | nil : Consists [] []
  | blank {t : Token} {tokens : List Token} {items : List Item} :
    t.kind = .blank → Consists tokens items → Consists (t :: tokens) items
  | number {t : Token} {tokens : List Token} {items : List Item} :
    t.isNumber = true → Consists tokens items → Consists (t :: tokens) (.number t :: items)
  | operator {t : Token} {op : Operation} {tokens : List Token} {items : List Item} :
    t.operation? = some op → Consists tokens items →
      Consists (t :: tokens) (.operator op t :: items)
  | group {o c : Token} {inner tokens : List Token} {content items : List Item} :
    o.kind = .bracketOpen → c.kind = .bracketClose → Consists inner content →
      Consists tokens items → Consists (o :: (inner ++ c :: tokens)) (.group content :: items)

/-- An item whose groups are in Polish notation. -/
inductive Piece where
  | operand (tokens : List Token)
  | operator (op : Operation) (t : Token)

namespace Piece

def operands : Piece → List Token
  | .operand tokens => tokens
  | .operator _ _ => []

/-- The token of an operator of the class. -/
def sign? (c : Operation → Bool) : Piece → Option Token
  | .operand _ => none
  | .operator op t => if c op then some t else none

def isSign (c : Operation → Bool) (p : Piece) : Bool := (p.sign? c).isSome

/-- The operands of a run one after another. -/
def flat (run : List Piece) : List Token := run.flatMap operands

/-- The operators of the class from the last to the first, and then the
stretches between them as `inside` arranges them. -/
def gather (c : Operation → Bool) (inside : List Piece → List Token) (pieces : List Piece) :
    List Token :=
  (pieces.filterMap (sign? c)).reverse ++ (pieces.splitOnP (isSign c)).flatMap inside

def segment : List Piece → List Token := gather Operation.isMultiplicative flat

def arrange : List Piece → List Token := gather Operation.isAdditive segment

end Piece

namespace Item

mutual

def piece : Item → Piece
  | .number t => .operand [t]
  | .operator op t => .operator op t
  | .group content => .operand (Piece.arrange (pieces content))

def pieces : List Item → List Piece
  | [] => []
  | item :: rest => item.piece :: pieces rest

end

def polish (items : List Item) : List Token := Piece.arrange (pieces items)

end Item

namespace Piece

/-! ## Arrangements of joined lists -/

section Gather

variable {c : Operation → Bool} {inside : List Piece → List Token}

theorem sign?_eq_none {p : Piece} (h : p.isSign c = false) : p.sign? c = none := by
  rwa [isSign, Option.isSome_eq_false_iff, Option.isNone_iff_eq_none] at h

theorem sign?_operator {op : Operation} (h : c op = true) (t : Token) :
    (Piece.operator op t).sign? c = some t := if_pos h

theorem isSign_operator (op : Operation) (t : Token) :
    (Piece.operator op t).isSign c = c op := by
  by_cases h : c op = true
  · rw [isSign, sign?_operator h, h]
    rfl
  · rw [isSign, sign?, if_neg h, Bool.eq_false_iff.mpr h]
    rfl

theorem gather_of_forall {pieces : List Piece} (h : ∀ p ∈ pieces, p.isSign c = false) :
    gather c inside pieces = inside pieces := by
  have hnone : pieces.filterMap (sign? c) = [] :=
    List.filterMap_eq_nil_iff.mpr fun p hp => sign?_eq_none (h p hp)
  rw [gather, hnone, List.splitOnP_eq_singleton h, List.reverse_nil, List.nil_append,
    List.flatMap_singleton]

/-- An operator of the class with a stretch behind it goes to the front, and the
stretch to the end. -/
theorem gather_append_operator {op : Operation} (hop : c op = true) (t : Token)
    (before : List Piece) {after : List Piece} (h : ∀ p ∈ after, p.isSign c = false) :
    gather c inside (before ++ .operator op t :: after) =
      t :: (gather c inside before ++ inside after) := by
  have hsep : (Piece.operator op t).isSign c = true := by rw [isSign_operator, hop]
  have hnone : after.filterMap (sign? c) = [] :=
    List.filterMap_eq_nil_iff.mpr fun p hp => sign?_eq_none (h p hp)
  simp only [gather, List.filterMap_append, List.filterMap_cons_some (sign?_operator hop t), hnone,
    List.splitOnP_append_cons _ _ hsep, List.splitOnP_eq_singleton h, List.flatMap_append,
    List.flatMap_singleton, List.reverse_append, List.reverse_singleton, List.singleton_append,
    List.append_assoc]
  rfl

theorem flat_cons (p : Piece) (run : List Piece) : flat (p :: run) = p.operands ++ flat run := rfl

/-- A list that is not empty is split as its tail is, with the first piece in
front of the first stretch or, if it is an operator of the class, on its own. -/
theorem splitOnP_cons_of_neg {p : Piece} (hp : p.isSign c = false) {rest first : List Piece}
    {others : List (List Piece)} (h : rest.splitOnP (isSign c) = first :: others) :
    (p :: rest).splitOnP (isSign c) = (p :: first) :: others := by
  rw [List.splitOnP_cons_eq_if_modifyHead, hp, h]
  rfl

/-- Operators add nothing to a run, so a split at operators does not change the
operands. -/
theorem flatMap_flat_splitOnP (pieces : List Piece) :
    (pieces.splitOnP (isSign c)).flatMap flat = flat pieces := by
  induction pieces with
  | nil => rfl
  | cons p rest ih =>
    by_cases hp : p.isSign c = true
    · rw [List.splitOnP_cons_eq_if_modifyHead, if_pos hp, List.flatMap_cons, ih]
      cases p with
      | operand tokens => cases hp
      | operator op t => rfl
    · obtain ⟨first, others, hsplit⟩ :=
        List.exists_cons_of_ne_nil (List.splitOnP_ne_nil (isSign c) rest)
      rw [hsplit, List.flatMap_cons] at ih
      rw [splitOnP_cons_of_neg (Bool.eq_false_iff.mpr hp) hsplit, List.flatMap_cons, flat_cons,
        flat_cons, List.append_assoc, ih]

end Gather

theorem segment_eq (pieces : List Piece) :
    segment pieces = (pieces.filterMap (sign? Operation.isMultiplicative)).reverse ++ flat pieces := by
  rw [segment, gather, flatMap_flat_splitOnP]

theorem segment_operand (tokens : List Token) : segment [.operand tokens] = tokens := by
  rw [segment_eq]
  exact List.append_nil tokens

end Piece

/-! ## The arrangement by recursion -/

/-- An arrangement in parts: the multiplicative operators of the first segment
and the additive operators, both in order, and what comes behind all of them. -/
structure Layout where
  products : List Token
  sums : List Token
  output : List Token

namespace Layout

def empty : Layout := { products := [], sums := [], output := [] }

def operand (tokens : List Token) (l : Layout) : Layout :=
  { l with output := tokens ++ l.output }

def product (t : Token) (l : Layout) : Layout := { l with products := t :: l.products }

/-- An additive operator ends the segment behind it. -/
def sum (t : Token) (l : Layout) : Layout where
  products := []
  sums := t :: l.sums
  output := l.products.reverse ++ l.output

def tokens (l : Layout) : List Token := l.sums.reverse ++ (l.products.reverse ++ l.output)

def ofPieces : List Piece → Layout
  | [] => empty
  | .operand tokens :: rest => (ofPieces rest).operand tokens
  | .operator op t :: rest =>
    if op.isAdditive then (ofPieces rest).sum t else (ofPieces rest).product t

end Layout

namespace Piece

theorem exists_split (pieces : List Piece) :
    ∃ first others, pieces.splitOnP (isSign Operation.isAdditive) = first :: others ∧
      (Layout.ofPieces pieces).sums = pieces.filterMap (sign? Operation.isAdditive) ∧
      (Layout.ofPieces pieces).products = first.filterMap (sign? Operation.isMultiplicative) ∧
      (Layout.ofPieces pieces).output = flat first ++ others.flatMap segment := by
  induction pieces with
  | nil => exact ⟨[], [], rfl, rfl, rfl, rfl⟩
  | cons p rest ih =>
    obtain ⟨first, others, hsplit, hsums, hproducts, houtput⟩ := ih
    cases p with
    | operand tokens =>
      refine ⟨.operand tokens :: first, others, splitOnP_cons_of_neg rfl hsplit, hsums,
        hproducts, ?_⟩
      show tokens ++ (Layout.ofPieces rest).output = _
      rw [houtput, ← List.append_assoc]
      rfl
    | operator op t =>
      by_cases hop : op.isAdditive = true
      · have hsign : (Piece.operator op t).isSign Operation.isAdditive = true := by
          rw [isSign_operator, hop]
        have hlayout : Layout.ofPieces (.operator op t :: rest) = (Layout.ofPieces rest).sum t :=
          if_pos hop
        refine ⟨[], first :: others, ?_, ?_, ?_, ?_⟩
        · rw [List.splitOnP_cons_eq_if_modifyHead, if_pos hsign, hsplit]
        · rw [hlayout, List.filterMap_cons_some (sign?_operator hop t), ← hsums]
          rfl
        · rw [hlayout]
          rfl
        · rw [hlayout, List.flatMap_cons, segment_eq, ← hproducts, List.append_assoc, ← houtput]
          rfl
      · have hsign : (Piece.operator op t).isSign Operation.isAdditive = false := by
          rw [isSign_operator, Bool.eq_false_iff.mpr hop]
        have hmul := Operation.isMultiplicative_of_not hop
        have hlayout : Layout.ofPieces (.operator op t :: rest) =
            (Layout.ofPieces rest).product t := if_neg hop
        refine ⟨.operator op t :: first, others, splitOnP_cons_of_neg hsign hsplit, ?_, ?_, ?_⟩
        · rw [hlayout, List.filterMap_cons_none (sign?_eq_none hsign), ← hsums]
          rfl
        · rw [hlayout, List.filterMap_cons_some (sign?_operator hmul t), ← hproducts]
          rfl
        · rw [hlayout]
          exact houtput

theorem arrange_eq_layout (pieces : List Piece) :
    arrange pieces = (Layout.ofPieces pieces).tokens := by
  obtain ⟨first, others, hsplit, hsums, hproducts, houtput⟩ := exists_split pieces
  rw [arrange, gather, hsplit, List.flatMap_cons, segment_eq, Layout.tokens, hsums, hproducts,
    houtput, List.append_assoc]

-- `2 3 * () - 5`: the run of two operands stays together and the empty group
-- leaves its operator without one
example :
    Item.polish [.number (.number 2), .number (.number 3), .operator .mul { kind := .star },
      .group [], .operator .sub { kind := .minus }, .number (.number 5)] =
      [{ kind := .minus }, { kind := .star }, .number 2, .number 3, .number 5] := rfl

end Piece
end WordCalc
