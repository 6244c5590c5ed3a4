import DocMarkdown.Markup.Extent

/-!
# Markup/Doctype — where a document type declaration ends

A document type declaration ends at a `>`, but not at any: it may hold literals in quotes and,
between square brackets, an **internal subset** of further declarations, instructions and comments,
each of which ends by a rule of its own.  `Region` says in which part of it a character stands, and
`Region.rule` is the closing rule over the regions.
-/

namespace DocMarkdown.Markup.Doctype

/-! ## Regions -/

/-- **Where in a document type declaration a character stands.** -/
inductive Region where
  /-- Between the keyword and the subset, within a literal or not. -/
  | head (literal : Option Quote)
  /-- Between the brackets, outside all declarations. -/
  | subset
  /-- Behind a `<` of the subset, of which it is not yet known what it begins. -/
  | opening (seen : List Char)
  /-- In an instruction; whether the last character was a `?`. -/
  | instruction (mark : Bool)
  /-- In a comment, behind so many dashes (two stand for more). -/
  | comment (dashes : Nat)
  /-- In a declaration that may hold literals. -/
  | quoting (literal : Option Quote)
  /-- In any other declaration. -/
  | plain
  /-- Behind the subset. -/
  | tail
deriving DecidableEq, Repr

/-- The declarations of a subset in which a quoted `>` does not count. -/
def quotingKeywords : List (List Char) :=
  ["!ENTITY".toList, "!ATTLIST".toList, "!NOTATION".toList]

/-- What may stand behind a `<` of the subset and have an end of its own. -/
def openings : List (List Char) :=
  ['?'] :: ['!', '-', '-'] :: quotingKeywords

/-- The region behind a `<` of the subset, after the characters `seen` and one more. -/
def Region.ofOpening (seen : List Char) (c : Char) : Region :=
  let now := seen ++ [c]
  if now = ['?'] then instruction false
  else if now = ['!', '-', '-'] then comment 0
  else if now ∈ quotingKeywords then quoting none
  else if openings.any (now.isPrefixOf ·) then opening now
  else if c = '>' then subset
  else plain

/-- **The closing rule of a document type declaration.** -/
def Region.rule : Region → Char → Option Region
  | head none, c =>
    if c = '>' then none
    else if c = '[' then some subset
    else some (head (Quote.ofChar? c))
  | head (some q), c => some (head (Quote.after (some q) c))
  | subset, c => some (if c = ']' then tail else if c = '<' then opening [] else subset)
  | opening seen, c => some (ofOpening seen c)
  | instruction mark, c =>
    some (if mark && c == '>' then subset else instruction (c == '?'))
  | comment dashes, c =>
    some (if c = '-' then comment (min 2 (dashes + 1))
      else if c = '>' ∧ dashes = 2 then subset
      else comment 0)
  | quoting none, c => some (if c = '>' then subset else quoting (Quote.ofChar? c))
  | quoting (some q), c => some (quoting (Quote.after (some q) c))
  | plain, c => some (if c = '>' then subset else plain)
  | tail, c => if c = '>' then none else some tail

/-- A document type declaration is closed by nothing but a `>`. -/
theorem Region.eq_of_rule_eq_none {region : Region} {c : Char} (h : region.rule c = none) :
    c = '>' := by
  unfold Region.rule at h
  grind

/-! ## The declaration -/

/-- The extent of a declaration, read from behind its `<!`. -/
def reach (cs : List Char) : Extent Region :=
  extent Region.rule (.head none) cs

/-- The body begins with the keyword, in whichever case. -/
def hasKeyword (body : List Char) : Bool :=
  (body.take 7).map Char.toUpper == "DOCTYPE".toList

/-- The body has nothing but space behind its keyword. -/
def isNameless (body : List Char) : Bool :=
  (body.drop 7).all isSpace

end DocMarkdown.Markup.Doctype
