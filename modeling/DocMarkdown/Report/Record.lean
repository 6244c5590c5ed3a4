import DocMarkdown.Text.Quoted

/-!
# Report/Record — values as diagnostics show them

A diagnostic shows the whole of an error, cause within cause.  A **record** is such a value: a word,
a number, a text in quotation marks, or a name with parts, which stand in round brackets or, where
they have names themselves, in braces.
-/

namespace DocMarkdown

/-- **A value in a diagnostic.** -/
inductive Record where
  /-- Words that stand as they are. -/
  | words (text : String)
  | number (n : Nat)
  | quoted (text : String)
  /-- A name with parts. -/
  | parts (name : String) (items : List Record)
  /-- A name with named parts. -/
  | fields (name : String) (items : List (String × Record))
deriving Repr

mutual

/-- **The text of a record.** -/
def Record.text : Record → String
  | .words text => text
  | .number n => toString n
  | .quoted text => Text.quote text
  | .parts name items => name ++ "(" ++ ", ".intercalate (textOfItems items) ++ ")"
  | .fields name items => name ++ " \x7b " ++ ", ".intercalate (textOfFields items) ++ " \x7d"

/-- The texts of parts. -/
def textOfItems : List Record → List String
  | [] => []
  | r :: rs => r.text :: textOfItems rs

/-- The texts of named parts, each behind its name. -/
def textOfFields : List (String × Record) → List String
  | [] => []
  | (name, r) :: rs => (name ++ ": " ++ r.text) :: textOfFields rs

end

end DocMarkdown
