import WordCalc.Text.Basic

namespace WordCalc.Excerpt

def reach : Nat := 10

def ellipsis : Text := "...".toList

def start (index : Nat) : Nat := index - reach

def stop (source : Text) (index : Nat) : Nat := min source.length (index + reach)

def window (source : Text) (index : Nat) : Text :=
  (source.take (stop source index)).drop (start index)

def line (source : Text) (index : Nat) : Text :=
  (if 0 < start index then ellipsis else []) ++ window source index ++
    (if stop source index < source.length then ellipsis else [])

/-- The column of the position on the excerpt's line. -/
def column (index : Nat) : Nat :=
  index - start index + (if 0 < start index then ellipsis.length else 0)

def caret (column : Nat) : Text := List.replicate column ' ' ++ ['^']

def render (source : Text) (index : Nat) : Text :=
  line source index ++ '\n' :: caret (column index)

end WordCalc.Excerpt
