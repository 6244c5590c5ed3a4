import DocMarkdown.Markup.Attribute
import DocMarkdown.Markup.Token
import DocMarkdown.Text.Blank
import DocMarkdown.Text.LineEnd
import DocMarkdown.Tree.Element

/-!
# Tree/Builder — a tree as its tokens arrive

A tree grows at its open end.  A **builder** holds the elements that are open, each with the
children it has so far, the text that is **pending** in the innermost one, and the root once it is
complete.  Text and references go to the pending text; every other piece of content settles it
first: it becomes one text node, or nothing where it is all blank.  Comments, instructions and
declarations leave everything as it is, so text goes on behind them.
-/

namespace DocMarkdown

open Markup (Attribute MarkupError Token)

/-- **An open element**: its name with its prefix, which its end tag repeats, its attributes, and
its children so far, the last one first. -/
structure Frame where
  tag : List Char
  attributes : List (String × String)
  children : List Node
deriving DecidableEq, Repr

namespace Frame

/-- One more child. -/
def push (f : Frame) (n : Node) : Frame :=
  { f with children := n :: f.children }

/-- The local part of the element's name. -/
def name (f : Frame) : String :=
  String.ofList (Markup.localPart f.tag)

/-- The element, complete. -/
def close (f : Frame) : Element where
  name := f.name
  attributes := f.attributes
  children := f.children.reverse

/-- The element that a tag opens; declarations of namespaces are no attributes of it. -/
def ofTag (content : List Char) : Except MarkupError Frame :=
  match Markup.tagAttributes content with
  | .error e => .error (.invalidAttribute e)
  | .ok attributes => .ok
    { tag := Markup.tagName content
      attributes := (attributes.filter (!·.isNamespace)).map fun a =>
        (String.ofList a.key, String.ofList a.value)
      children := [] }

end Frame

/-- **A tree in the making.** -/
structure Builder where
  /-- The open elements, the innermost first. -/
  frames : List Frame
  /-- The text that has not become a node yet. -/
  pending : List Char
  /-- The first complete element outside all others. -/
  root? : Option Element
deriving DecidableEq, Repr

namespace Builder

/-- Nothing read yet. -/
def empty : Builder := ⟨[], [], none⟩

/-- A node at the open end: outside all elements it is lost. -/
def addNode (b : Builder) (n : Node) : Builder :=
  match b.frames with
  | [] => b
  | f :: fs => { b with frames := f.push n :: fs }

/-- **A complete element**: a child of the open one, or the root if it is the first outside. -/
def addElement (b : Builder) (e : Element) : Builder :=
  match b.frames with
  | [] => { b with root? := b.root?.or (some e) }
  | f :: fs => { b with frames := f.push (.element e) :: fs }

/-- More pending text: outside all elements it is lost. -/
def addText (b : Builder) (cs : List Char) : Builder :=
  match b.frames with
  | [] => b
  | _ :: _ => { b with pending := b.pending ++ cs }

/-- **The pending text becomes a node**, or nothing where it is all blank. -/
def settle (b : Builder) : Builder :=
  let rest := { b with pending := [] }
  if b.pending.all Text.isBlank then rest else rest.addNode (.text (String.ofList b.pending))

/-- The open end moves into an element. -/
def openElement (b : Builder) (f : Frame) : Builder :=
  { b with frames := f :: b.frames }

/-- The open end moves out of the innermost element, whose end tag has come. -/
def closeElement (b : Builder) (found : List Char) : Except MarkupError Builder :=
  match b.frames with
  | [] => .error (.unmatchedEnd (String.ofList found))
  | f :: fs =>
    if f.tag = found then .ok ({ b with frames := fs }.addElement f.close)
    else .error (.mismatchedEnd (String.ofList f.tag) (String.ofList found))

/-- **One more token.** -/
def step (b : Builder) : Token → Except MarkupError Builder
  | .text content => .ok (b.addText (Text.unifyLineEnds content))
  | .reference name => .ok (b.addText (Markup.referenceText name))
  | .cdata content =>
    .ok (b.settle.addNode (.cdata (String.ofList (Text.unifyLineEnds content))))
  | .startTag content => (Frame.ofTag content).map b.settle.openElement
  | .emptyTag content => (Frame.ofTag content).map fun f => b.settle.addElement f.close
  | .endTag content => b.settle.closeElement (Markup.endTagName content)
  | .comment _ => .ok b
  | .instruction _ => .ok b
  | .doctype _ => .ok b

/-! ## What a step keeps -/

/-- **Pending text has an element to go to.** -/
def Rooted (b : Builder) : Prop :=
  b.frames = [] → b.pending = []

theorem rooted_empty : empty.Rooted := fun _ => rfl

@[simp] theorem pending_settle (b : Builder) : b.settle.pending = [] := by
  unfold settle addNode
  grind

@[simp] theorem pending_addElement (b : Builder) (e : Element) :
    (b.addElement e).pending = b.pending := by
  unfold addElement
  split <;> rfl

@[simp] theorem pending_addNode (b : Builder) (n : Node) : (b.addNode n).pending = b.pending := by
  unfold addNode
  split <;> rfl

theorem rooted_of_pending {b : Builder} (h : b.pending = []) : b.Rooted := fun _ => h

theorem rooted_addText {b : Builder} (cs : List Char) (h : b.Rooted) : (b.addText cs).Rooted := by
  unfold addText
  split
  · exact h
  · next heq => intro hnil; simp [heq] at hnil

end Builder

end DocMarkdown
