import DocMarkdown.Text.Unprintable

/-!
# Text/Quoted — a text in quotation marks, as diagnostics show it

`quote` puts a text between double quotes so that its ends and its odd characters can be seen: the
quote and the backslash get a backslash, the common controls a short form, and every other
unprintable character its number.
-/

namespace DocMarkdown.Text

/-- A character by its number: `\u{…}` with lower-case hexadecimal digits. -/
def escapeByNumber (c : Char) : List Char :=
  '\\' :: 'u' :: '{' :: (Nat.toDigits 16 c.toNat ++ ['}'])

/-- A character inside quotation marks. -/
def quoteChar (c : Char) : List Char :=
  if c = '"' ∨ c = '\\' then ['\\', c]
  else if c = '\t' then ['\\', 't']
  else if c = '\n' then ['\\', 'n']
  else if c = '\r' then ['\\', 'r']
  else if c = '\x00' then ['\\', '0']
  else if isUnprintable c then escapeByNumber c
  else [c]

/-- **A text in quotation marks.** -/
def quote (text : String) : String :=
  String.ofList ('"' :: (text.toList.flatMap quoteChar ++ ['"']))

end DocMarkdown.Text
