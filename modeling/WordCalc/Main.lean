import WordCalc.Session
import WordCalc.Tour

namespace WordCalc.Main

def put (t : Text) : IO Unit := do
  let out ← IO.getStdout
  out.putStr (String.ofList t)
  out.flush

def fail (f : Calculation.Fault) : IO Unit :=
  throw (IO.userError (String.ofList f.message))

/-- Answers the lines with a prompt between neighbours and says whether the
session goes on. -/
def talk : List Text → IO Bool
  | [] => return true
  | line :: rest => do
    match Session.answerLine line with
    | .error f => fail f; return false
    | .ok reply =>
      put reply.output
      if reply.stop then return false
      if rest.isEmpty then return true
      put Session.prompt
      talk rest

/-- Reads and answers until the input or the session ends.  What is read at
once ends at a line feed and holds more than one line only if there are
carriage returns in it. -/
partial def loop (input : IO.FS.Stream) : IO Unit := do
  put Session.prompt
  let chunk ← input.getLine
  if chunk.isEmpty then return
  if ← talk (Session.lines chunk.toList) then loop input

end WordCalc.Main

open WordCalc in
def main (args : List String) : IO Unit := do
  if args = ["tour"] then
    match Tour.text with
    | .ok t => Main.put t
    | .error f => Main.fail f
  else
    Main.put Session.greeting
    Main.loop (← IO.getStdin)
