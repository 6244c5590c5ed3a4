import DocMarkdown.Markup.Doctype
import DocMarkdown.Markup.Error
import DocMarkdown.Markup.Reference
import DocMarkdown.Text.Cut
import DocMarkdown.Text.Width

/-!
# Markup/Token — the tokens that a text is made of

A **token** is a piece of literal text, a reference, or one construct between `<` and `>`.
`Token.read` takes the first token of a text that is not empty, and `Reading.of` takes them all, up
to the end or to the first lexical error.  Tokens keep every character: `eq_of_read` says that a
text is the source of its first token and what follows it.
-/

namespace DocMarkdown.Markup

open Text (cut width)

/-! ## Tokens -/

/-- **A token**, with the characters between its delimiters. -/
inductive Token where
  | text (content : List Char)
  | reference (name : List Char)
  | cdata (content : List Char)
  | comment (content : List Char)
  | instruction (content : List Char)
  | doctype (content : List Char)
  | startTag (content : List Char)
  | emptyTag (content : List Char)
  | endTag (content : List Char)
deriving DecidableEq, Repr

namespace Token

/-- **The characters that a token is written with.** -/
def source : Token → List Char
  | text content => content
  | reference name => '&' :: (name ++ [';'])
  | cdata content =>
    ['<', '!', '[', 'C', 'D', 'A', 'T', 'A', '['] ++ content ++ [']', ']', '>']
  | comment content => ['<', '!', '-', '-'] ++ content ++ ['-', '-', '>']
  | instruction content => ['<', '?'] ++ content ++ ['?', '>']
  | doctype content => ['<', '!'] ++ content ++ ['>']
  | startTag content => '<' :: (content ++ ['>'])
  | emptyTag content => '<' :: (content ++ ['/', '>'])
  | endTag content => ['<', '/'] ++ content ++ ['>']

/-- The bytes that a token takes. -/
def size (t : Token) : Nat :=
  width t.source

end Token

/-- **A lexical error and its place**, in bytes from where reading began. -/
structure Fault where
  error : LexicalError
  offset : Nat
deriving DecidableEq, Repr

/-! ## The first token -/

namespace Token

/-- A character that stands for itself in running text. -/
def isLiteral (c : Char) : Bool :=
  c != '<' && c != '&'

/-- The construct that runs to a mark, from its first character behind the opening. -/
def readTo (mark : List Char) (make : List Char → Token) (error : LexicalError) (cs : List Char) :
    Except Fault (Token × List Char) :=
  match cut mark cs with
  | some (content, rest) => .ok (make content, rest)
  | none => .error ⟨error, 0⟩

/-- The tag that runs to the first `>` outside quotes. -/
def readTag (make : List Char → Token) (cs : List Char) : Except Fault (Token × List Char) :=
  match extent tagRule none cs with
  | .closed content rest => .ok (make content, rest)
  | .unclosed none => .error ⟨.unclosedTag, 0⟩
  | .unclosed (some q) => .error ⟨.unclosedValue q, 0⟩
where
  /-- A tag ends at a `>` that stands in no quotes. -/
  tagRule (within : Option Quote) (c : Char) : Option (Option Quote) :=
    if within = none ∧ c = '>' then none else some (Quote.after within c)

/-- The tag with some content: an empty one if a slash stands at its end. -/
def ofContent (content : List Char) : Token :=
  if content.getLast? = some '/' then emptyTag content.dropLast else startTag content

/-- A document type declaration, from behind its `<!`. -/
def readDoctype (cs : List Char) : Except Fault (Token × List Char) :=
  match Doctype.reach cs with
  | .unclosed _ => .error ⟨.unclosedDoctype, 0⟩
  | .closed body rest =>
    if Doctype.hasKeyword body = false then .error ⟨.unclosedDoctype, 0⟩
    else if Doctype.isNameless body then .error ⟨.namelessDoctype, width ('<' :: '!' :: body)⟩
    else .ok (doctype body, rest)

/-- The construct behind `<!`. -/
def readBang : List Char → Except Fault (Token × List Char)
  | '[' :: 'C' :: 'D' :: 'A' :: 'T' :: 'A' :: '[' :: cs =>
    readTo [']', ']', '>'] cdata .unclosedCData cs
  | '-' :: '-' :: cs => readTo ['-', '-', '>'] comment .unclosedComment cs
  | '[' :: _ => .error ⟨.unclosedCData, 0⟩
  | '-' :: _ => .error ⟨.unclosedComment, 0⟩
  | 'D' :: cs => readDoctype ('D' :: cs)
  | 'd' :: cs => readDoctype ('d' :: cs)
  | _ => .error ⟨.unknownDeclaration, 0⟩

/-- What is said of an instruction without its end, from behind its `<?`: the declaration at the
head of a document is one. -/
def openInstruction : List Char → LexicalError
  | 'x' :: 'm' :: 'l' :: [] => .unclosedDeclaration
  | 'x' :: 'm' :: 'l' :: c :: _ =>
    if isSpace c ∨ c = '?' then .unclosedDeclaration else .unclosedInstruction
  | _ => .unclosedInstruction

/-- The construct behind a `<`. -/
def readMarkup : List Char → Except Fault (Token × List Char)
  | '!' :: cs => readBang cs
  | '?' :: '>' :: _ => .error ⟨.unclosedInstruction, 0⟩
  | '?' :: cs => readTo ['?', '>'] instruction (openInstruction cs) cs
  | '/' :: cs => readTag endTag cs
  | cs => readTag ofContent cs

/-- The reference behind an `&`. -/
def readReference (cs : List Char) : Except Fault (Token × List Char) :=
  match splitReference cs with
  | some (name, rest) => .ok (reference name, rest)
  | none => .error ⟨.unclosedReference, 0⟩

/-- **The first token of a text and what follows it**, from the text's first character on. -/
def read (c : Char) (cs : List Char) : Except Fault (Token × List Char) :=
  if c = '<' then readMarkup cs
  else if c = '&' then readReference cs
  else .ok (text (c :: cs.takeWhile isLiteral), cs.dropWhile isLiteral)

/-! ## Tokens keep every character

A token can be written down again as it was read (`Token.source`).  The places of later tokens are
sums of such sources, and reading ends because every source has a character. -/

theorem eq_of_readTo {mark : List Char} {make : List Char → Token} {error : LexicalError}
    {cs rest : List Char} {t : Token} (h : readTo mark make error cs = .ok (t, rest)) :
    ∃ content, t = make content ∧ cs = content ++ mark ++ rest := by
  unfold readTo at h
  split at h
  · next content _ heq =>
    cases h
    exact ⟨content, rfl, Text.eq_of_cut heq⟩
  · contradiction

theorem eq_of_readTag {make : List Char → Token} {cs rest : List Char} {t : Token}
    (h : readTag make cs = .ok (t, rest)) :
    ∃ content, t = make content ∧ cs = content ++ '>' :: rest := by
  unfold readTag at h
  split at h
  · next content _ heq =>
    cases h
    obtain ⟨last, c, hc, rfl⟩ := eq_of_extent_closed heq
    refine ⟨content, rfl, ?_⟩
    unfold readTag.tagRule at hc
    grind
  · contradiction
  · contradiction

theorem eq_of_readDoctype {cs rest : List Char} {t : Token}
    (h : readDoctype cs = .ok (t, rest)) : ∃ body, t = doctype body ∧ cs = body ++ '>' :: rest := by
  unfold readDoctype at h
  split at h
  · contradiction
  · next body _ heq =>
    obtain ⟨last, c, hc, rfl⟩ := eq_of_extent_closed heq
    obtain rfl := Doctype.Region.eq_of_rule_eq_none hc
    split at h
    · contradiction
    · split at h
      · contradiction
      · cases h
        exact ⟨body, rfl, rfl⟩

theorem source_ofContent (content : List Char) :
    (ofContent content).source = '<' :: (content ++ ['>']) := by
  unfold ofContent
  split
  · next h =>
    obtain ⟨front, rfl⟩ := List.getLast?_eq_some_iff.1 h
    simp [source]
  · rfl

theorem eq_of_readBang {cs rest : List Char} {t : Token} (h : readBang cs = .ok (t, rest)) :
    ∃ inner, t.source = '<' :: '!' :: inner ∧ cs = inner ++ rest := by
  unfold readBang at h
  split at h
  · obtain ⟨content, rfl, rfl⟩ := eq_of_readTo h
    exact ⟨_, rfl, by simp⟩
  · obtain ⟨content, rfl, rfl⟩ := eq_of_readTo h
    exact ⟨_, rfl, by simp⟩
  · contradiction
  · contradiction
  · obtain ⟨body, rfl, hbody⟩ := eq_of_readDoctype h
    exact ⟨_, rfl, by simp [hbody]⟩
  · obtain ⟨body, rfl, hbody⟩ := eq_of_readDoctype h
    exact ⟨_, rfl, by simp [hbody]⟩
  · contradiction

theorem eq_of_readMarkup {cs rest : List Char} {t : Token} (h : readMarkup cs = .ok (t, rest)) :
    ∃ inner, t.source = '<' :: inner ∧ cs = inner ++ rest := by
  unfold readMarkup at h
  split at h
  · obtain ⟨inner, hs, rfl⟩ := eq_of_readBang h
    exact ⟨_, hs, rfl⟩
  · contradiction
  · obtain ⟨content, rfl, rfl⟩ := eq_of_readTo h
    exact ⟨_, rfl, by simp⟩
  · obtain ⟨content, rfl, rfl⟩ := eq_of_readTag h
    exact ⟨_, rfl, by simp⟩
  · obtain ⟨content, rfl, rfl⟩ := eq_of_readTag h
    exact ⟨_, source_ofContent content, by simp⟩

/-- **A text is the source of its first token and what follows it.** -/
theorem eq_of_read {c : Char} {cs rest : List Char} {t : Token} (h : read c cs = .ok (t, rest)) :
    ∃ inner, t.source = c :: inner ∧ cs = inner ++ rest := by
  unfold read at h
  split at h
  · next hc => exact hc ▸ eq_of_readMarkup h
  · split at h
    · next hc =>
      unfold readReference at h
      split at h
      · next heq =>
        cases h
        exact ⟨_, by rw [hc]; rfl, by simp [eq_of_splitReference heq]⟩
      · contradiction
    · cases h
      exact ⟨_, rfl, (List.takeWhile_append_dropWhile).symm⟩

theorem length_rest_le_of_read {c : Char} {cs rest : List Char} {t : Token}
    (h : read c cs = .ok (t, rest)) : rest.length ≤ cs.length := by
  obtain ⟨inner, _, rfl⟩ := eq_of_read h
  simp

end Token

/-! ## All tokens -/

/-- **What reading a text finds**: its tokens, up to the fault that stopped it, if one did. -/
structure Reading where
  tokens : List Token
  fault? : Option Fault
deriving DecidableEq, Repr

namespace Reading

/-- One more token before the others. -/
def cons (t : Token) (reading : Reading) : Reading where
  tokens := t :: reading.tokens
  fault? := reading.fault?.map fun f => { f with offset := t.size + f.offset }

/-- **The tokens of a text.** -/
def of : List Char → Reading
  | [] => ⟨[], none⟩
  | c :: cs =>
    match _h : Token.read c cs with
    | .ok (t, rest) => (of rest).cons t
    | .error f => ⟨[], some f⟩
termination_by cs => cs.length
decreasing_by
  have := Token.length_rest_le_of_read _h
  simp only [List.length_cons]
  omega

@[simp] theorem of_nil : of [] = ⟨[], none⟩ := by
  rw [of]

theorem of_cons_of_read {c : Char} {cs rest : List Char} {t : Token}
    (h : Token.read c cs = .ok (t, rest)) : of (c :: cs) = (of rest).cons t := by
  rw [of]
  split
  · next heq => rw [h] at heq; cases heq; rfl
  · next heq => rw [h] at heq; cases heq

theorem of_cons_of_fault {c : Char} {cs : List Char} {f : Fault}
    (h : Token.read c cs = .error f) : of (c :: cs) = ⟨[], some f⟩ := by
  rw [of]
  split
  · next heq => rw [h] at heq; cases heq
  · next heq => rw [h] at heq; cases heq; rfl

/-- **A text without a fault is the sources of its tokens.** -/
theorem flatMap_source_of {cs : List Char} (h : (of cs).fault? = none) :
    (of cs).tokens.flatMap Token.source = cs := by
  induction hn : cs.length using Nat.strongRecOn generalizing cs with
  | ind n ih =>
    subst hn
    cases cs with
    | nil => simp
    | cons c cs =>
      cases hr : Token.read c cs with
      | error f => simp [of_cons_of_fault hr] at h
      | ok read =>
        obtain ⟨t, rest⟩ := read
        obtain ⟨inner, hs, rfl⟩ := Token.eq_of_read hr
        rw [of_cons_of_read hr] at h ⊢
        simp only [cons, Option.map_eq_none_iff] at h
        simp only [cons, List.flatMap_cons, hs, List.cons_append]
        have hlt : rest.length < (c :: (inner ++ rest)).length := by
          rw [List.length_cons, List.length_append]
          omega
        rw [ih rest.length hlt h rfl]

end Reading

end DocMarkdown.Markup
