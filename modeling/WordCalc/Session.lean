import WordCalc.Calculation.Basic
import WordCalc.Text.Blank

namespace WordCalc.Session

def greeting : Text :=
  "Execute a calculation on a rough mini EVM calculator\n".toList ++
    "You can only use + * - / ( ) and numeric characters. Enter \"exit\" to exit\n\n".toList

def prompt : Text := "EVM calculator> ".toList

/-- The lines of an input, which is taken to be read with universal line ends: a
line ends at a line feed, at a carriage return or at the two together. -/
def lines : Text → List Text
  | [] => []
  | '\r' :: '\n' :: rest => [] :: lines rest
  | '\r' :: rest => [] :: lines rest
  | '\n' :: rest => [] :: lines rest
  | c :: rest =>
    match lines rest with
    | [] => [[c]]
    | line :: more => (c :: line) :: more

structure Reply where
  output : Text
  stop : Bool
  deriving DecidableEq

def respond (line : Text) : Except Calculation.Fault Reply :=
  if line = "exit".toList then .ok { output := "Exiting ...\n".toList, stop := true }
  else do
    match ← Calculation.answer line with
    | .value n =>
      return {
        output := "result> ".toList ++ line ++ " = ".toList ++ Decimal.ofInt n ++ ['\n']
        stop := false }
    | .complaint message => return { output := message ++ ['\n'], stop := false }

/-- What is said to a line as it was read, with the blanks around it. -/
def answerLine (line : Text) : Except Calculation.Fault Reply :=
  match Text.strip Text.isBlank line with
  | [] => .ok { output := [], stop := false }
  | stripped => respond stripped

/-- Prompts and answers up to the end of the input or of the session. -/
def converse : List Text → Except Calculation.Fault Text
  | [] => .ok prompt
  | line :: rest => do
    let reply ← answerLine line
    if reply.stop then return prompt ++ reply.output
    return prompt ++ reply.output ++ (← converse rest)

def transcript (input : Text) : Except Calculation.Fault Text :=
  (converse (lines input)).map (greeting ++ ·)

end WordCalc.Session
