import DocMarkdown.Proofs.Tree.Growth

/-!
# Proofs/Tree/Nesting — which tags are open

A start tag opens, and an end tag closes what was opened last, under the same name: `openTags` keeps
nothing but the names of the open tags.  A builder keeps more, but no other names
(`step_nesting`), so its tokens have a place exactly when the tags nest and the attributes within
them can be read (`feed?_nesting`).
-/

namespace DocMarkdown

open Markup (MarkupError Token tagAttributes tagName endTagName)

/-! ## Open tags -/

namespace Markup

/-- The open tags behind one more token, the innermost first; an end tag that closes another tag
than the innermost, or none, has no place. -/
def Token.nest (opened : List (List Char)) : Token → Option (List (List Char))
  | startTag content => some (tagName content :: opened)
  | endTag content =>
    match opened with
    | [] => none
    | tag :: rest => if tag = endTagName content then some rest else none
  | _ => some opened

/-- **The open tags behind tokens**, if each end tag among them has a place. -/
def openTags (opened : List (List Char)) : List Token → Option (List (List Char))
  | [] => some opened
  | t :: ts => (t.nest opened).bind (openTags · ts)

/-- What a tag that opens an element holds. -/
def Token.opening? : Token → Option (List Char)
  | startTag content => some content
  | emptyTag content => some content
  | _ => none

/-- The attributes of a token can be read, if it has any. -/
def Token.Readable (t : Token) : Prop :=
  ∀ content, t.opening? = some content → ∃ as, tagAttributes content = .ok as

end Markup

/-! ## The names that a builder keeps

Of all that a step does to a builder, only what it does to the open tags decides whether the next
end tag has a place.  The lemmas on `tags` say that the rest leaves them alone. -/

namespace Builder

/-- The names of the open elements, the innermost first. -/
def tags (b : Builder) : List (List Char) :=
  b.frames.map Frame.tag

@[simp] theorem tags_addNode (b : Builder) (n : Node) : (b.addNode n).tags = b.tags := by
  cases hb : b.frames <;> simp [tags, addNode, hb, Frame.push]

@[simp] theorem tags_addElement (b : Builder) (e : Element) : (b.addElement e).tags = b.tags := by
  cases hb : b.frames <;> simp [tags, addElement, hb, Frame.push]

@[simp] theorem tags_addText (b : Builder) (cs : List Char) : (b.addText cs).tags = b.tags := by
  cases hb : b.frames <;> simp [tags, addText, hb]

@[simp] theorem tags_settle (b : Builder) : b.settle.tags = b.tags := by
  rw [settle]
  split
  · rfl
  · rw [tags_addNode]
    rfl

@[simp] theorem tags_openElement (b : Builder) (f : Frame) :
    (b.openElement f).tags = f.tag :: b.tags := rfl

/-- An end tag has a place in a builder where it has one among its tags. -/
theorem closeElement_nesting (b : Builder) (content : List Char) (opened : List (List Char)) :
    (∃ next, b.closeElement (endTagName content) = .ok next ∧ next.tags = opened) ↔
      (Token.endTag content).nest b.tags = some opened := by
  rcases hb : b.frames with _ | ⟨f, fs⟩
  · simp [closeElement, tags, hb, Token.nest]
  · have htags : b.tags = f.tag :: fs.map Frame.tag := by rw [tags, hb, List.map_cons]
    rw [closeElement, hb, htags, Token.nest]
    by_cases htag : f.tag = endTagName content
    · have hclose := tags_addElement { b with frames := fs } f.close
      simp only [if_pos htag, Except.ok.injEq, exists_eq_left', hclose, Option.some.injEq]
      rfl
    · simp [htag]

/-- **A token has a place in a builder when it has one among its tags**, and its attributes can be
read; the tags are then the same. -/
theorem step_nesting (b : Builder) (t : Token) (opened : List (List Char)) :
    (∃ next, b.step t = .ok next ∧ next.tags = opened) ↔
      t.Readable ∧ t.nest b.tags = some opened := by
  have htag : ∀ content, (∀ c, some content = some c → ∃ as, tagAttributes c = .ok as) ↔
      ∃ f, Frame.ofTag content = .ok f := by
    intro content
    simp [Frame.exists_ofTag_iff]
  cases t with
  | startTag content =>
    rw [step, Token.Readable, Token.opening?, htag, Token.nest]
    rcases hf : Frame.ofTag content with e | f
    · simp [Except.map]
    · simp [Except.map, Frame.eq_of_ofTag hf]
  | emptyTag content =>
    have hnest : (Token.emptyTag content).nest b.tags = some b.tags := rfl
    rw [step, Token.Readable, Token.opening?, htag, hnest]
    rcases hf : Frame.ofTag content with e | f
    · simp [Except.map]
    · simp [Except.map]
  | endTag content =>
    rw [step, closeElement_nesting, tags_settle]
    simp [Token.Readable, Token.opening?]
  | _ => simp [step, Token.Readable, Token.opening?, Token.nest]

/-- **Tokens have their places in a builder when their tags nest**, and their attributes can be
read. -/
theorem feed?_nesting (b : Builder) (ts : List Token) (opened : List (List Char)) :
    (∃ next, b.feed? ts = some next ∧ next.tags = opened) ↔
      (∀ t ∈ ts, t.Readable) ∧ Markup.openTags b.tags ts = some opened := by
  induction ts generalizing b with
  | nil => simp [feed?, Markup.openTags]
  | cons t ts ih =>
    rw [feed?, Markup.openTags]
    constructor
    · rintro ⟨next, hfeed, htags⟩
      rcases hstep : b.step t with e | mid
      · simp [hstep, Except.toOption] at hfeed
      · rw [hstep] at hfeed
        obtain ⟨hread, hopen⟩ := (ih mid).mp ⟨next, hfeed, htags⟩
        obtain ⟨ht, hnest⟩ := (step_nesting b t mid.tags).mp ⟨mid, hstep, rfl⟩
        exact ⟨List.forall_mem_cons.mpr ⟨ht, hread⟩, by rw [hnest]; exact hopen⟩
    · rintro ⟨hread, hopen⟩
      obtain ⟨mids, hnest, hopen⟩ := Option.bind_eq_some_iff.mp hopen
      obtain ⟨ht, hread⟩ := List.forall_mem_cons.mp hread
      obtain ⟨mid, hstep, rfl⟩ := (step_nesting b t mids).mpr ⟨ht, hnest⟩
      obtain ⟨next, hfeed, htags⟩ := (ih mid).mpr ⟨hread, hopen⟩
      exact ⟨next, by rw [hstep]; exact hfeed, htags⟩

end Builder

end DocMarkdown
