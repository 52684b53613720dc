import WordCalc.Calculation.Basic

namespace WordCalc.Tour

def samples : List Text :=
  ["5".toList, "1 + 1".toList, "4 + 6 * 3".toList, "(4 + 6)".toList, "(4+6) * 3".toList,
   "156 + 4 * 3 / 2".toList, "(156 + 4) * 3 / 2".toList, "10 - 3 - 2".toList,
   "7/6/2000".toList, "5^2".toList, "(1 + 2".toList, "1 + 2)".toList, "1 +".toList,
   "1 - 2".toList, "1 / 0".toList]

def rule : Text := List.replicate 10 '='

/-- The line that ends an entry. -/
def outcome (code : List UInt8) : Except Calculation.Fault Text :=
  match Machine.execute Machine.defaultCapacity code with
  | .ok n => .ok ("result: ".toList ++ Decimal.ofInt n)
  | .error (.decoding f) => .error (.execution (.decoding f))
  | .error f => .ok ("runtime error: ".toList ++ f.message)

def onCode (code : List UInt8) : Except Calculation.Fault (List Text) := do
  let lines ← (Program.lines code).mapError fun f => .execution (.decoding f)
  let last ← outcome code
  return ["bytecode: ".toList ++ Hex.ofBytes code, "disassembly:".toList,
    Text.stacked (lines.map (' ' :: ' ' :: ·)), last]

/-- A sample with every form that it takes on the way to its value, or the first
fault that is the user's. -/
def entry (source : Text) : Except Calculation.Fault (List Text) := do
  let heading := [rule, "code: '".toList ++ source ++ "'".toList]
  match Lexer.tokens source with
  | .error f => return heading ++ [f.message]
  | .ok tokens =>
    let line ← (Token.writeAll Decimal.standardLimit tokens).mapError .writing
    let heading := heading ++ ["tokens: ".toList ++ line]
    match Polish.parse Decimal.standardLimit tokens with
    | .error (.unmatched f) =>
      let message ← (f.told Decimal.standardLimit).mapError .writing
      return heading ++ [message]
    | .error (.unwritten f) => throw (.writing f)
    | .ok polish =>
      let code ← (Program.ofPolish polish).mapError .encoding
      return heading ++ ["prefix notation: ".toList ++ polish.text] ++ (← onCode code)

def text : Except Calculation.Fault Text :=
  (samples.mapM entry).map fun entries => entries.flatten.flatMap (· ++ ['\n'])

end WordCalc.Tour
