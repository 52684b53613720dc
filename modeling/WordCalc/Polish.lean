import WordCalc.Operator
import WordCalc.Excerpt

/-!
# Polish notation

Operators before their operands, as in `+ 156 / * 4 3 2`.  One scan from right to
left: numbers go to the front of the output, operators and closing brackets wait
on a stack.  Only brackets are checked.
-/

namespace WordCalc

structure Polish where
  tokens : List Token
  deriving DecidableEq

namespace Polish

def text (p : Polish) : Text := Text.spaced (p.tokens.map Token.text)

inductive Cause where
  /-- An opening bracket that is never closed. -/
  | unclosed
  /-- A closing bracket that was never opened. -/
  | unopened
  deriving DecidableEq

structure Unmatched where
  cause : Cause
  index : Nat
  deriving DecidableEq

structure Fault extends Unmatched where
  tokens : List Token
  deriving DecidableEq

def Fault.summary (f : Fault) : Text :=
  match f.cause with
  | .unclosed => "Mismatched parenthesis".toList
  | .unopened => "Invalid source: ".toList ++ Token.render f.tokens

/-- The column behind the tokens in front and the space that follows them. -/
def column : Text → Nat
  | [] => 0
  | front => front.length + 1

def layout (summary front line : Text) : Text :=
  "Parser error: ".toList ++ summary ++ '\n' :: line ++ '\n' :: Excerpt.caret (column front)

def report (summary : Text) (tokens : List Token) (index : Nat) : Text :=
  layout summary (Token.render (tokens.take index)) (Token.render tokens)

/-- The report, if the limit on digits allows it. -/
def tell (limit : Nat) (summary : Text) (tokens : List Token) (index : Nat) :
    Except Decimal.Fault Text := do
  let front ← Token.writeAll limit (tokens.take index)
  let line ← Token.writeAll limit tokens
  return layout summary front line

def Fault.message (f : Fault) : Text := report f.summary f.tokens f.index

def Fault.told (limit : Nat) (f : Fault) : Except Decimal.Fault Text :=
  tell limit f.summary f.tokens f.index

/-- A token on the stack and its index in the list that it came from. -/
structure Waiting where
  index : Nat
  token : Token
  deriving DecidableEq

/-- The state of a scan: what waits, the latest first, and the output so far. -/
structure Scan where
  waiting : List Waiting
  output : List Token
  deriving DecidableEq

def Waiting.isBracket (w : Waiting) : Bool := w.token.kind == .bracketClose

namespace Scan

def empty : Scan := { waiting := [], output := [] }

def hold (s : Scan) (i : Nat) (t : Token) : Scan := { s with waiting := ⟨i, t⟩ :: s.waiting }

/-- Moves the latest entries to the output as long as they satisfy `p`. -/
def release (p : Waiting → Bool) (s : Scan) : Scan where
  waiting := s.waiting.dropWhile p
  output := ((s.waiting.takeWhile p).map Waiting.token).reverse ++ s.output

/-- Releasing leaves all tokens in the state, each once. -/
theorem release_perm (p : Waiting → Bool) (s : Scan) :
    ((s.release p).waiting.map Waiting.token ++ (s.release p).output).Perm
      (s.waiting.map Waiting.token ++ s.output) := by
  conv => rhs; rw [← List.takeWhile_append_dropWhile (p := p) (l := s.waiting), List.map_append]
  simp only [release]
  rw [← List.append_assoc]
  apply List.Perm.append_right
  exact List.perm_append_comm.trans ((List.reverse_perm _).append_right _)

end Scan

/-- Whether a waiting entry has to leave before the token can wait. -/
def displaced (incoming : Token) (w : Waiting) : Bool :=
  match Operator.ofKind? incoming.kind, Operator.ofKind? w.token.kind with
  | some new, some old => new.displaces old
  | _, _ => false

/-- The state after the token with index `i`. -/
def step (i : Nat) (t : Token) (s : Scan) : Except Unmatched Scan :=
  match t.kind with
  | .number => .ok { s with output := t :: s.output }
  | .blank => .ok s
  | .bracketClose => .ok (s.hold i t)
  | .bracketOpen =>
    let s := s.release fun w => !w.isBracket
    match s.waiting with
    | [] => .error ⟨.unclosed, i⟩
    | _ :: outer => .ok { s with waiting := outer }
  | .plus | .minus | .star | .slash => .ok ((s.release (displaced t)).hold i t)

/-- The state after tokens of which the first has index `i`. -/
def scan (i : Nat) : List Token → Except Unmatched Scan
  | [] => .ok .empty
  | t :: rest => (scan (i + 1) rest).bind (step i t)

def finish (s : Scan) : Except Unmatched (List Token) :=
  match s.waiting.find? Waiting.isBracket with
  | some w => .error ⟨.unopened, w.index⟩
  | none => .ok (s.release fun _ => true).output

/-- Polish notation, or the bracket that stands in its way, of which nothing is
written yet. -/
def ofTokens (tokens : List Token) : Except Fault Polish :=
  match (scan 0 tokens).bind finish with
  | .ok output => .ok ⟨output⟩
  | .error unmatched => .error { unmatched with tokens }

/-- A bracket without a partner, or a number too long for the complaint about one. -/
inductive Refusal where
  | unmatched (f : Fault)
  | unwritten (f : Decimal.Fault)
  deriving DecidableEq

/-- What comes of a fault: the complaint about a closing bracket shows the tokens. -/
def Fault.refusal (limit : Nat) (f : Fault) : Refusal :=
  match f.cause with
  | .unclosed => .unmatched f
  | .unopened =>
    match Token.writeAll limit f.tokens with
    | .ok _ => .unmatched f
    | .error unwritten => .unwritten unwritten

/-- Polish notation where integers are written with a limit on digits. -/
def parse (limit : Nat) (tokens : List Token) : Except Refusal Polish :=
  (ofTokens tokens).mapError (Fault.refusal limit)

end Polish
end WordCalc
