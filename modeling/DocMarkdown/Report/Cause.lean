import DocMarkdown.Command.Error
import DocMarkdown.Report.Record

/-!
# Report/Cause — errors as records

Every error has its record, `record`, with the record of what caused it inside.  These are the words
that a failing command ends with.
-/

namespace DocMarkdown

/-- The record of a cause under the name of what it made fail. -/
def Record.ofCause (name : String) (cause : Record) : Record :=
  fields name [("source", cause)]

/-- The record of a cause, with the path that it arose at. -/
def Record.ofCauseAt (name : String) (p : Path) (cause : Record) : Record :=
  fields name [("path", quoted p.text), ("source", cause)]

/-! ## Markup -/

namespace Markup

/-- The record of an error in one construct. -/
def constructRecord (name : String) : Record :=
  .parts "Syntax" [.words name]

/-- The record of an error in how constructs go together. -/
def illFormedRecord (r : Record) : Record :=
  .parts "IllFormed" [r]

/-- The record of a lexical error. -/
def LexicalError.record : LexicalError → Record
  | unknownDeclaration => constructRecord "InvalidBangMarkup"
  | unclosedInstruction => constructRecord "UnclosedPI"
  | unclosedDeclaration => constructRecord "UnclosedXmlDecl"
  | unclosedComment => constructRecord "UnclosedComment"
  | unclosedDoctype => constructRecord "UnclosedDoctype"
  | unclosedCData => constructRecord "UnclosedCData"
  | unclosedTag => constructRecord "UnclosedTag"
  | unclosedValue .single => constructRecord "UnclosedSingleQuotedAttributeValue"
  | unclosedValue .double => constructRecord "UnclosedDoubleQuotedAttributeValue"
  | namelessDoctype => illFormedRecord (.words "MissingDoctypeName")
  | unclosedReference => illFormedRecord (.words "UnclosedReference")

/-- The record of an attribute error; a quote stands as its number. -/
def AttributeError.record : AttributeError → Record
  | expectedEquals p => .parts "ExpectedEq" [.number p]
  | expectedValue p => .parts "ExpectedValue" [.number p]
  | unquotedValue p => .parts "UnquotedValue" [.number p]
  | expectedQuote p q => .parts "ExpectedQuote" [.number p, .number q.char.toNat]
  | duplicated p earlier => .parts "Duplicated" [.number p, .number earlier]

/-- The record of a markup error. -/
def MarkupError.record : MarkupError → Record
  | lexical e => e.record
  | invalidAttribute e => .parts "InvalidAttr" [e.record]
  | unmatchedEnd found => illFormedRecord (.parts "UnmatchedEndTag" [.quoted found])
  | mismatchedEnd expected found =>
    illFormedRecord
      (.fields "MismatchedEndTag" [("expected", .quoted expected), ("found", .quoted found)])

end Markup

/-! ## Conversion -/

/-- The record of an error in loading. -/
def LoadError.record : LoadError → Record
  | malformed e position => .fields "Xml" [("source", e.record), ("position", .number position)]
  | unclosed name => .fields "Unclosed" [("name", .quoted name)]
  | noRoot => .words "NoRoot"

/-- The record of an error in the layout. -/
def LayoutError.record : LayoutError → Record
  | missingAttribute element key =>
    .fields "MissingAttribute" [("element", .quoted element), ("attribute", .quoted key)]
  | missingChild parent child =>
    .fields "MissingElement" [("parent", .quoted parent), ("child", .quoted child)]

/-- The record of an error in a conversion. -/
def ConvertError.record : ConvertError → Record
  | load e => .ofCause "Parse" e.record
  | layout e => .ofCause "Render" e.record

/-! ## Files and the command -/

/-- The record of an error that the system has a number for. -/
def Record.ofSystem (code : Nat) (kind words : String) : Record :=
  .fields "Os" [("code", .number code), ("kind", .words kind), ("message", .quoted words)]

/-- The record of an error with files that has no number. -/
def Record.ofKind (kind words : String) : Record :=
  .fields "Error" [("kind", .words kind), ("message", .quoted words)]

/-- The record of an error with files. -/
def FileError.record : FileError → Record
  | notFound => .ofSystem 2 "NotFound" "No such file or directory"
  | alreadyExists => .ofSystem 17 "AlreadyExists" "File exists"
  | notADirectory => .ofSystem 20 "NotADirectory" "Not a directory"
  | isADirectory => .ofSystem 21 "IsADirectory" "Is a directory"
  | notText => .ofKind "InvalidData" "stream did not contain valid UTF-8"
  | system words => .ofKind "Uncategorized" words

/-- **The record of why a conversion failed.** -/
def RunError.record : RunError → Record
  | badArguments e => .ofCause "ParseArgs" (.words e.message)
  | noInput => .words "NoInputFiles"
  | severalToOutput => .words "MultipleFilesToStdout"
  | noStem => .words "InvalidFilename"
  | notCreated e => .ofCause "CreateOutputDir" e.record
  | notRead p e => .ofCauseAt "ReadFile" p e.record
  | notConverted p e => .ofCauseAt "ConvertFile" p e.record
  | notWritten p e => .ofCauseAt "WriteFile" p e.record

end DocMarkdown
