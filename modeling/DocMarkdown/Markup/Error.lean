import DocMarkdown.Markup.Basic

/-!
# Markup/Error — what makes a text no markup

Three layers of cause, one for each layer of reading: a **lexical error** stops the division into
tokens, an **attribute error** lies inside one tag, and a **markup error** is either of them or an
end tag that closes the wrong element or none.  Each has one wording, `message`.
-/

namespace DocMarkdown.Markup

/-! ## The causes -/

/-- A construct that begins and does not end, or does not continue as any known one. -/
inductive LexicalError where
  | unknownDeclaration
  | unclosedInstruction
  | unclosedDeclaration
  | unclosedComment
  | unclosedDoctype
  | unclosedCData
  | unclosedTag
  | unclosedValue (quote : Quote)
  | namelessDoctype
  | unclosedReference
deriving DecidableEq, Repr

/-- What is wrong between the name of a tag and its end; offsets count from behind the `<`. -/
inductive AttributeError where
  | expectedEquals (offset : Nat)
  | expectedValue (offset : Nat)
  | unquotedValue (offset : Nat)
  | expectedQuote (offset : Nat) (quote : Quote)
  | duplicated (offset earlier : Nat)
deriving DecidableEq, Repr

/-- **Why a text is no markup.** -/
inductive MarkupError where
  | lexical (error : LexicalError)
  | invalidAttribute (error : AttributeError)
  | unmatchedEnd (found : String)
  | mismatchedEnd (expected found : String)
deriving DecidableEq, Repr

/-! ## Their wording -/

/-- What is said of a construct without its end. -/
def notClosed (construct mark : String) : String :=
  "syntax error: " ++ construct ++ " not closed: `" ++ mark ++ "` not found before end of input"

/-- The wording of a lexical error. -/
def LexicalError.message : LexicalError → String
  | unknownDeclaration => "syntax error: unknown or missed symbol in markup"
  | unclosedInstruction => notClosed "processing instruction" "?>"
  | unclosedDeclaration => notClosed "XML declaration" "?>"
  | unclosedComment => notClosed "comment" "-->"
  | unclosedDoctype => notClosed "DOCTYPE" ">"
  | unclosedCData => notClosed "CDATA" "]]>"
  | unclosedTag => notClosed "tag" ">"
  | unclosedValue q => notClosed "attribute value" (String.singleton q.char)
  | namelessDoctype =>
    "ill-formed document: `<!DOCTYPE>` declaration does not contain a name of a document type"
  | unclosedReference =>
    "ill-formed document: " ++
      "entity or character reference not closed: `;` not found before end of input"

/-- The wording of an attribute error, its place included. -/
def AttributeError.message : AttributeError → String
  | expectedEquals p => placed p "attribute key must be directly followed by `=` or space"
  | expectedValue p => placed p "`=` must be followed by an attribute value"
  | unquotedValue p => placed p "attribute value must be enclosed in `\"` or `'`"
  | expectedQuote p q =>
    placed p ("missing closing quote `" ++ String.singleton q.char ++ "` in attribute value")
  | duplicated p earlier =>
    placed p ("duplicated attribute, previous declaration at position " ++ toString earlier)
where
  /-- A complaint with the offset that it is about. -/
  placed (offset : Nat) (complaint : String) : String :=
    "position " ++ toString offset ++ ": " ++ complaint

/-- **The wording of a markup error.** -/
def MarkupError.message : MarkupError → String
  | lexical e => e.message
  | invalidAttribute e => "error while parsing attribute: " ++ e.message
  | unmatchedEnd found =>
    "ill-formed document: close tag `</" ++ found ++ ">` does not match any open tag"
  | mismatchedEnd expected found =>
    "ill-formed document: expected `</" ++ expected ++ ">`, but `</" ++ found ++ ">` was found"

end DocMarkdown.Markup
