/-!
# Text/Indent — the indentation of a code sample

A code sample stands in its file as deep as the markup around it.  `dedent` takes that depth off:
the leading spaces of the first line are counted, four of them stay, and what is over is removed
from the front of every line.  Empty lines are dropped.
-/

namespace DocMarkdown.Text

/-- The indentation that a code sample keeps. -/
def codeIndent : Nat := 4

/-- The number of leading spaces. -/
def indentOf (line : List Char) : Nat :=
  (line.takeWhile (· == ' ')).length

/-- The lines of a text that are not empty. -/
def solidLines (cs : List Char) : List (List Char) :=
  (cs.splitOn '\n').filter (!·.isEmpty)

/-- The characters that every line loses: what the first line is indented beyond `codeIndent`. -/
def surplusIndent : List (List Char) → Nat
  | [] => 0
  | first :: _ => indentOf first - codeIndent

/-- The lines of a dedented text. -/
def dedentLines (lines : List (List Char)) : List (List Char) :=
  lines.map (·.drop (surplusIndent lines))

/-- **The dedent of a code sample**: its lines that are not empty, each without the first line's
surplus indentation. -/
def dedent (text : String) : String :=
  String.ofList (List.intercalate ['\n'] (dedentLines (solidLines text.toList)))

@[simp] theorem length_dedentLines (lines : List (List Char)) :
    (dedentLines lines).length = lines.length := by
  simp [dedentLines]

end DocMarkdown.Text
