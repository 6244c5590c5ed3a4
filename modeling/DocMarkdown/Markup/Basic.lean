/-!
# Markup/Basic — characters with a role in markup

What every part of the reader of markup shares: **space**, which separates the parts of a tag, the
two **quotes** around attribute values and literals, and the local part of a qualified name.
-/

namespace DocMarkdown.Markup

/-! ## Space -/

/-- **Space in markup**: space, tab, CR, LF — fewer characters than are blank in running text. -/
def isSpace (c : Char) : Bool :=
  c == ' ' || c == '\t' || c == '\r' || c == '\n'

/-- A text without the space at its end. -/
def dropTrailingSpace (cs : List Char) : List Char :=
  (cs.reverse.dropWhile isSpace).reverse

/-! ## Quotes -/

/-- The two characters that delimit a value. -/
inductive Quote where
  | single
  | double
deriving DecidableEq, Repr

namespace Quote

/-- The quote as a character. -/
def char : Quote → Char
  | single => '\''
  | double => '"'

/-- The quote that a character is, if it is one. -/
def ofChar? (c : Char) : Option Quote :=
  if c = '\'' then some single else if c = '"' then some double else none

@[simp] theorem ofChar?_char (q : Quote) : ofChar? q.char = some q := by
  cases q <;> rfl

/-- **What a character does to the quotes around it**: a quote opens, its like closes, and between
the two nothing else counts. -/
def after (within : Option Quote) (c : Char) : Option Quote :=
  match within with
  | none => ofChar? c
  | some q => if c = q.char then none else some q

end Quote

/-! ## Names -/

/-- **The local part of a qualified name**: what stands behind its first colon, or all of it. -/
def localPart (name : List Char) : List Char :=
  match name.dropWhile (· ≠ ':') with
  | [] => name
  | _ :: part => part

end DocMarkdown.Markup
