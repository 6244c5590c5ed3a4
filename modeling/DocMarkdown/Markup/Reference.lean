import DocMarkdown.Text.Numeral

/-!
# Markup/Reference — characters by name or number

A reference `&…;` stands for one character: by one of five **names**, or by the character's
**number** behind `#`.  Running text and attribute values spell numbers by different rules
(`Spelling`), and they differ in what an unknown reference does: running text keeps it as it is
written, while in a value one bad reference leaves the whole value as it is written.
-/

namespace DocMarkdown.Markup

open Text (Base)

/-! ## Where a reference ends -/

/-- **The name of a reference and what follows it**, read from behind the `&`: the name runs to the
first `;`, and an `&` or `<` before that leaves the reference without an end. -/
def splitReference : List Char → Option (List Char × List Char)
  | [] => none
  | c :: cs =>
    if c = ';' then some ([], cs)
    else if c = '&' ∨ c = '<' then none
    else (splitReference cs).map fun parts => (c :: parts.1, parts.2)

theorem eq_of_splitReference {cs name rest : List Char}
    (h : splitReference cs = some (name, rest)) : cs = name ++ ';' :: rest := by
  induction cs generalizing name with
  | nil => simp [splitReference] at h
  | cons c cs ih =>
    simp only [splitReference] at h
    split at h
    · simp_all
    · split at h
      · contradiction
      · obtain ⟨⟨n, r⟩, hnr, heq⟩ := Option.map_eq_some_iff.1 h
        simp only [Prod.mk.injEq] at heq
        obtain ⟨rfl, rfl⟩ := heq
        simp [ih hnr]

theorem length_rest_lt_of_splitReference {cs name rest : List Char}
    (h : splitReference cs = some (name, rest)) : rest.length < cs.length := by
  simp only [eq_of_splitReference h, List.length_append, List.length_cons]
  omega

/-! ## What it stands for -/

/-- **Which spellings of a character's number count.** -/
structure Spelling where
  /-- `X` may announce hexadecimal digits, as `x` does. -/
  capital : Bool
  /-- One `+` may stand before the digits. -/
  sign : Bool
  /-- The number may be zero. -/
  null : Bool
deriving DecidableEq, Repr

/-- The spellings that running text admits. -/
def Spelling.text : Spelling := ⟨true, true, true⟩

/-- The spellings that attribute values admit. -/
def Spelling.value : Spelling := ⟨false, false, false⟩

/-- The character with a number, if there is one. -/
def scalar? (n : Nat) : Option Char :=
  if n.isValidChar then some (Char.ofNat n) else none

/-- The characters that have a name. -/
def named? (name : List Char) : Option Char :=
  if name = ['l', 't'] then some '<'
  else if name = ['g', 't'] then some '>'
  else if name = ['a', 'm', 'p'] then some '&'
  else if name = ['a', 'p', 'o', 's'] then some '\''
  else if name = ['q', 'u', 'o', 't'] then some '"'
  else none

/-- The base of a number and its digits, read from behind the `#`. -/
def Spelling.base (spelling : Spelling) : List Char → Base × List Char
  | 'x' :: digits => (.hexadecimal, digits)
  | 'X' :: digits => if spelling.capital then (.hexadecimal, digits) else (.decimal, 'X' :: digits)
  | digits => (.decimal, digits)

/-- The digits without the sign that may stand before them. -/
def Spelling.unsigned (spelling : Spelling) : List Char → List Char
  | '+' :: digits => if spelling.sign then digits else '+' :: digits
  | digits => digits

/-- The character that is spelled by a number, read from behind the `#`. -/
def Spelling.numbered? (spelling : Spelling) (cs : List Char) : Option Char := do
  let (base, digits) := spelling.base cs
  let n ← base.value? (spelling.unsigned digits)
  if n = 0 ∧ spelling.null = false then none else scalar? n

/-- **The character that a reference stands for**, if its name spells one. -/
def Spelling.resolve? (spelling : Spelling) : List Char → Option Char
  | '#' :: cs => spelling.numbered? cs
  | name => named? name

/-! ## In running text -/

/-- **A reference in running text**: its character, or itself as it is written. -/
def referenceText (name : List Char) : List Char :=
  match Spelling.text.resolve? name with
  | some c => [c]
  | none => '&' :: (name ++ [';'])

/-! ## In attribute values -/

/-- A value with every reference replaced, if all of them stand for characters. -/
def unescape? : List Char → Option (List Char)
  | [] => some []
  | c :: cs =>
    if c = '&' then
      match _h : splitReference cs with
      | none => none
      | some (name, rest) => do
        let d ← Spelling.value.resolve? name
        let ds ← unescape? rest
        return d :: ds
    else (unescape? cs).map (c :: ·)
termination_by cs => cs.length
decreasing_by
  · have := length_rest_lt_of_splitReference _h
    simp only [List.length_cons]
    omega
  · simp

/-- **The value that an attribute stands for**: all its references replaced, or none. -/
def attributeValue (raw : List Char) : List Char :=
  (unescape? raw).getD raw

end DocMarkdown.Markup
