import DocMarkdown.Markup.Error
import DocMarkdown.Markup.Reference
import DocMarkdown.Text.Width

/-!
# Markup/Attribute — the attributes of a tag

Behind its name a tag holds `key = "value"` pairs, with space where one likes and none needed behind
a closing quote.  The reader takes key, equals sign, quote and value in turn and stops at the first
that is missing; a key that the tag has had already stops it too, before its value is looked at.
Offsets count bytes from behind the `<`: what is left to read tells how much has been read.
-/

namespace DocMarkdown.Markup

open Text (width)

/-- **An attribute as it is written**: its key, where the key begins, and what stands between its
quotes. -/
structure Attribute where
  key : List Char
  offset : Nat
  raw : List Char
deriving DecidableEq, Repr

namespace Attribute

/-- The value that the attribute stands for. -/
def value (a : Attribute) : List Char :=
  attributeValue a.raw

/-- The attribute declares a namespace. -/
def isNamespace (a : Attribute) : Bool :=
  "xmlns:".toList.isPrefixOf a.key || a.key == "xmlns".toList

/-! ## The parts of one attribute

What is left to read tells where one is, so each part is given the size of the whole tag: a place is
that size less the width of what is left. -/

/-- A character that ends a key. -/
def endsKey (c : Char) : Bool :=
  c == '=' || isSpace c

/-- The end of a key, given what follows it: an equals sign, with space before it at most. -/
def readEquals (size : Nat) (cs : List Char) : Except AttributeError (List Char) :=
  match cs.dropWhile isSpace with
  | [] => .error (.expectedEquals size)
  | c :: rest =>
    if c = '=' then .ok rest else .error (.expectedEquals (size - width (c :: rest)))

/-- The value behind an equals sign and what follows its closing quote. -/
def readValue (size : Nat) (cs : List Char) : Except AttributeError (List Char × List Char) :=
  match cs.dropWhile isSpace with
  | [] => .error (.expectedValue size)
  | c :: rest =>
    match Quote.ofChar? c with
    | none => .error (.unquotedValue (size - width (c :: rest)))
    | some q =>
      match rest.dropWhile (· ≠ q.char) with
      | [] => .error (.expectedQuote size q)
      | _ :: after => .ok (rest.takeWhile (· ≠ q.char), after)

/-- The attribute whose key begins with `c`, and what follows it, in a tag of `size` bytes that has
had the attributes `earlier`. -/
def read (size : Nat) (earlier : List Attribute) (c : Char) (cs : List Char) :
    Except AttributeError (Attribute × List Char) := do
  let key := c :: cs.takeWhile (!endsKey ·)
  let offset := size - width (c :: cs)
  let rest ← readEquals size (cs.dropWhile (!endsKey ·))
  match earlier.find? (·.key = key) with
  | some twin => throw (.duplicated offset twin.offset)
  | none =>
    let (raw, after) ← readValue size rest
    return (⟨key, offset, raw⟩, after)

/-! ## Reading gets on -/

theorem length_rest_le_of_readEquals {size : Nat} {cs rest : List Char}
    (h : readEquals size cs = .ok rest) : rest.length ≤ cs.length := by
  have hle : (cs.dropWhile isSpace).length ≤ cs.length :=
    (List.dropWhile_suffix _).length_le
  unfold readEquals at h
  split at h
  · contradiction
  · next heq =>
    rw [heq, List.length_cons] at hle
    split at h
    · cases h; omega
    · contradiction

theorem length_rest_le_of_readValue {size : Nat} {cs raw rest : List Char}
    (h : readValue size cs = .ok (raw, rest)) : rest.length ≤ cs.length := by
  have hle : (cs.dropWhile isSpace).length ≤ cs.length :=
    (List.dropWhile_suffix _).length_le
  unfold readValue at h
  split at h
  · contradiction
  · next c after heq =>
    rw [heq, List.length_cons] at hle
    split at h
    · contradiction
    · next q _ =>
      have hle' : (after.dropWhile (· ≠ q.char)).length ≤ after.length :=
        (List.dropWhile_suffix _).length_le
      split at h
      · contradiction
      · next heq' =>
        rw [heq', List.length_cons] at hle'
        cases h
        omega

/-- **An attribute takes at least one character.** -/
theorem length_rest_le_of_read {size : Nat} {earlier : List Attribute} {c : Char}
    {cs rest : List Char} {a : Attribute} (h : read size earlier c cs = .ok (a, rest)) :
    rest.length ≤ cs.length := by
  have hle : (cs.dropWhile (!endsKey ·)).length ≤ cs.length :=
    (List.dropWhile_suffix _).length_le
  unfold read at h
  simp only [bind, Except.bind] at h
  split at h
  · contradiction
  · next behind heq =>
    have hle' := length_rest_le_of_readEquals heq
    split at h
    · contradiction
    · split at h
      · contradiction
      · next parts hv =>
        have hle'' := length_rest_le_of_readValue hv
        simp only [pure, Except.pure, Except.ok.injEq, Prod.mk.injEq] at h
        obtain ⟨_, rfl⟩ := h
        omega

/-! ## All attributes of a tag -/

/-- The attributes in what is left of a tag of `size` bytes, behind the attributes `earlier`. -/
def readAll (size : Nat) (earlier : List Attribute) (cs : List Char) :
    Except AttributeError (List Attribute) :=
  match _h : cs.dropWhile isSpace with
  | [] => .ok earlier.reverse
  | c :: rest =>
    match _hr : read size earlier c rest with
    | .error e => .error e
    | .ok (a, behind) => readAll size (a :: earlier) behind
termination_by cs.length
decreasing_by
  have : (cs.dropWhile isSpace).length ≤ cs.length :=
    (List.dropWhile_suffix _).length_le
  have := length_rest_le_of_read _hr
  simp only [_h, List.length_cons] at *
  omega

end Attribute

/-! ## Tags -/

/-- The name of a tag, from what stands between its brackets. -/
def tagName (content : List Char) : List Char :=
  content.takeWhile (!isSpace ·)

/-- The name of an end tag: the space at its end does not count, unless there is nothing else. -/
def endTagName (content : List Char) : List Char :=
  match dropTrailingSpace content with
  | [] => content
  | name => name

/-- **The attributes of a tag**, from what stands between its brackets. -/
def tagAttributes (content : List Char) : Except AttributeError (List Attribute) :=
  Attribute.readAll (width content) [] (content.dropWhile (!isSpace ·))

end DocMarkdown.Markup
