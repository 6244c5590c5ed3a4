/-!
# Tree/Element — the tree of a document

An **element** has a name, attributes in their order, and a list of **nodes**: elements, pieces of
text, and CDATA sections.  Look-ups see the first of several: `attr?` the first attribute with a
key, `child?` the first child element with a name.
-/

namespace DocMarkdown

mutual

/-- **An element**: its name without prefix, its attributes and children in document order. -/
structure Element where
  name : String
  attributes : List (String × String)
  children : List Node

/-- **A node**: an element, text with its references resolved, or the content of a CDATA section. -/
inductive Node where
  | element (e : Element)
  | text (content : String)
  | cdata (content : String)

end

deriving instance Repr for Element, Node

/-! ## Comparison

Trees are compared node by node.  Elements and lists of nodes hold each other, so the three
comparisons are one recursion. -/

mutual

/-- Whether two elements are the same. -/
def Element.decEq : (e e' : Element) → Decidable (e = e')
  | ⟨name, attributes, children⟩, ⟨name', attributes', children'⟩ =>
    haveI := decEqNodes children children'
    decidable_of_iff (name = name' ∧ attributes = attributes' ∧ children = children')
      (Element.mk.injEq .. ▸ Iff.rfl)

/-- Whether two nodes are the same. -/
def Node.decEq : (n n' : Node) → Decidable (n = n')
  | .element e, .element e' =>
    haveI := e.decEq e'
    decidable_of_iff (e = e') (Node.element.injEq .. ▸ Iff.rfl)
  | .text content, .text content' =>
    decidable_of_iff (content = content') (Node.text.injEq .. ▸ Iff.rfl)
  | .cdata content, .cdata content' =>
    decidable_of_iff (content = content') (Node.cdata.injEq .. ▸ Iff.rfl)
  | .element _, .text _ | .element _, .cdata _ | .text _, .element _ | .text _, .cdata _
  | .cdata _, .element _ | .cdata _, .text _ => .isFalse nofun

/-- Whether two lists of nodes are the same. -/
def decEqNodes : (ns ns' : List Node) → Decidable (ns = ns')
  | [], [] => .isTrue rfl
  | [], _ :: _ | _ :: _, [] => .isFalse nofun
  | n :: ns, n' :: ns' =>
    haveI := n.decEq n'
    haveI := decEqNodes ns ns'
    decidable_of_iff (n = n' ∧ ns = ns') (List.cons.injEq .. ▸ Iff.rfl)

end

instance : DecidableEq Element := Element.decEq

instance : DecidableEq Node := Node.decEq

/-! ## Nodes -/

/-- The element that a node is, if it is one. -/
def Node.element? : Node → Option Element
  | element e => some e
  | _ => none

namespace Element

/-! ## Look-ups -/

/-- The value of the first attribute with a key. -/
def attr? (e : Element) (key : String) : Option String :=
  e.attributes.lookup key

/-- The children that are elements. -/
def childElements (e : Element) : List Element :=
  e.children.filterMap Node.element?

/-- The child elements with a name. -/
def childrenNamed (e : Element) (name : String) : List Element :=
  e.childElements.filter (·.name == name)

/-- The first child element with a name. -/
def child? (e : Element) (name : String) : Option Element :=
  (e.childrenNamed name).head?

end Element

/-! ## Value -/

mutual

/-- **The value of an element**: all text and CDATA within it, in order. -/
def Element.value : Element → String
  | ⟨_, _, children⟩ => valueOfNodes children

/-- The text and CDATA of a node. -/
def Node.value : Node → String
  | .element e => e.value
  | .text content => content
  | .cdata content => content

/-- The text and CDATA of nodes, in order. -/
def valueOfNodes : List Node → String
  | [] => ""
  | n :: ns => n.value ++ valueOfNodes ns

end

end DocMarkdown
