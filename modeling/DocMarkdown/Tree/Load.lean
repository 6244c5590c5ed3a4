import DocMarkdown.Tree.Builder

/-!
# Tree/Load — the tree of a text

`Element.parse` reads a text to the end and gives the first element that stands outside all others.
What comes behind that element is read too, so that a fault there is found.  Three things can go
wrong (`LoadError`), and of several faults the first in the text is told.
-/

namespace DocMarkdown

open Markup (Fault MarkupError Reading Token)

/-! ## Errors -/

/-- **Why a text has no tree.** -/
inductive LoadError where
  /-- The text is no markup: why not, and at which byte that is told. -/
  | malformed (error : MarkupError) (position : Nat)
  /-- The text ends within an element. -/
  | unclosed (name : String)
  /-- The text has no element. -/
  | noRoot
deriving DecidableEq, Repr

/-- The wording of an error. -/
def LoadError.message : LoadError → String
  | malformed error position =>
    "malformed XML at byte " ++ toString position ++ ": " ++ error.message
  | unclosed name => "unexpected end of input: <" ++ name ++ "> is not closed"
  | noRoot => "document has no root element"

/-! ## From tokens -/

/-- **Where an error in a token is told**: one in its attributes behind it, any other before it. -/
def Markup.MarkupError.position (error : MarkupError) (start : Nat) (t : Token) : Nat :=
  match error with
  | .invalidAttribute _ => start + t.size
  | _ => start

namespace Builder

/-- All tokens in turn, the first of which starts at a byte. -/
def run (b : Builder) (start : Nat) : List Token → Except LoadError Builder
  | [] => .ok b
  | t :: ts =>
    match b.step t with
    | .ok next => next.run (start + t.size) ts
    | .error e => .error (.malformed e (e.position start t))

/-- The root, if nothing is open and there is one. -/
def finish (b : Builder) : Except LoadError Element :=
  match b.frames with
  | f :: _ => .error (.unclosed f.name)
  | [] =>
    match b.root? with
    | some root => .ok root
    | none => .error .noRoot

end Builder

/-- **The tree of what reading found.** -/
def Element.ofReading (reading : Reading) : Except LoadError Element := do
  let b ← Builder.empty.run 0 reading.tokens
  match reading.fault? with
  | some f => throw (.malformed (.lexical f.error) f.offset)
  | none => b.finish

/-! ## From text -/

/-- A text without the byte order mark that may stand before it. -/
def dropByteOrderMark : List Char → List Char
  | '\uFEFF' :: cs => cs
  | cs => cs

/-- **The tree of a text.** -/
def Element.parse (text : String) : Except LoadError Element :=
  Element.ofReading (Reading.of (dropByteOrderMark text.toList))

end DocMarkdown
