import DocMarkdown.Proofs.Markup.Written
import DocMarkdown.Text.Blank
import DocMarkdown.Tree.Element
import Mathlib.Data.List.Chain

/-!
# Proofs/Tree/Normal — the trees that have a written form

A tree is **tidy** when its elements hold nothing that reading would change: no declarations of
namespaces and no key twice among the attributes, no blank text, no two texts side by side, no line
end that is still open.  It is **normal** when its names can be written down besides.
-/

namespace DocMarkdown

open Markup (IsName declaresNamespace)

/-! ## Within an element -/

/-- **The elements that an element contains**: itself, and the children of those it contains. -/
inductive Element.Contains (e : Element) : Element → Prop
  | self : e.Contains e
  | child {d c : Element} : e.Contains d → .element c ∈ d.children → e.Contains c

/-- What a child contains, its parent contains. -/
theorem Element.Contains.of_child {e c d : Element} (hc : .element c ∈ e.children)
    (h : c.Contains d) : e.Contains d := by
  induction h with
  | self => exact .child .self hc
  | child _ hmem ih => exact .child ih hmem

/-- What an element contains besides itself, one of its children contains. -/
theorem Element.Contains.eq_or_of_child {e d : Element} (h : e.Contains d) :
    d = e ∨ ∃ c, .element c ∈ e.children ∧ c.Contains d := by
  induction h with
  | self => exact Or.inl rfl
  | child _ hmem ih =>
    rcases ih with rfl | ⟨c, hc, hcontains⟩
    · exact Or.inr ⟨_, hmem, .self⟩
    · exact Or.inr ⟨c, hc, .child hcontains hmem⟩

/-- The node is text. -/
def Node.isText : Node → Bool
  | text _ => true
  | _ => false

/-! ## Tidy and normal -/

/-- **An element that reading would leave as it is**, apart from its names and from what its child
elements hold. -/
structure Element.Tidy (e : Element) : Prop where
  /-- No attribute declares a namespace. -/
  plain : ∀ a ∈ e.attributes, declaresNamespace a.1 = false
  /-- No key comes twice. -/
  nodup : (e.attributes.map Prod.fst).Nodup
  /-- No text is all blank. -/
  solid : ∀ t, .text t ∈ e.children → t.toList.all Text.isBlank = false
  /-- No two texts are neighbours. -/
  apart : e.children.IsChain fun m n => ¬(m.isText = true ∧ n.isText = true)
  /-- No CDATA section holds a CR, or the mark that would end it. -/
  cdata : ∀ t, .cdata t ∈ e.children → '\r' ∉ t.toList ∧ ¬ [']', ']', '>'] <:+: t.toList

/-- **A normal tree**: all its elements are tidy and have names that can be written. -/
structure Element.Normal (e : Element) : Prop where
  tidy : ∀ d, e.Contains d → d.Tidy
  /-- Names are names without a colon, which would set a prefix off. -/
  names : ∀ d, e.Contains d → IsName d.name.toList ∧ ':' ∉ d.name.toList
  keys : ∀ d, e.Contains d → ∀ a ∈ d.attributes, IsName a.1.toList

/-- **A tree is normal when its root and its child elements are.** -/
theorem Element.Normal.of_children {e : Element} (htidy : e.Tidy)
    (hname : IsName e.name.toList ∧ ':' ∉ e.name.toList)
    (hkeys : ∀ a ∈ e.attributes, IsName a.1.toList)
    (hchildren : ∀ c, .element c ∈ e.children → c.Normal) : e.Normal where
  tidy d hd := by
    rcases hd.eq_or_of_child with rfl | ⟨c, hc, hcd⟩
    · exact htidy
    · exact (hchildren c hc).tidy d hcd
  names d hd := by
    rcases hd.eq_or_of_child with rfl | ⟨c, hc, hcd⟩
    · exact hname
    · exact (hchildren c hc).names d hcd
  keys d hd := by
    rcases hd.eq_or_of_child with rfl | ⟨c, hc, hcd⟩
    · exact hkeys
    · exact (hchildren c hc).keys d hcd

/-- The child elements of a normal tree are normal trees. -/
theorem Element.Normal.of_child {e c : Element} (h : e.Normal) (hc : .element c ∈ e.children) :
    c.Normal where
  tidy d hd := h.tidy d (.of_child hc hd)
  names d hd := h.names d (.of_child hc hd)
  keys d hd := h.keys d (.of_child hc hd)

/-! ## Nodes -/

/-- **The children of a normal element**, from some place on. -/
structure NormalNodes (ns : List Node) : Prop where
  elements : ∀ e, .element e ∈ ns → e.Normal
  solid : ∀ t, .text t ∈ ns → t.toList.all Text.isBlank = false
  apart : ns.IsChain fun m n => ¬(m.isText = true ∧ n.isText = true)
  cdata : ∀ t, .cdata t ∈ ns → '\r' ∉ t.toList ∧ ¬ [']', ']', '>'] <:+: t.toList

theorem Element.Normal.nodes {e : Element} (h : e.Normal) : NormalNodes e.children where
  elements _ hc := h.of_child hc
  solid := (h.tidy e .self).solid
  apart := (h.tidy e .self).apart
  cdata := (h.tidy e .self).cdata

theorem NormalNodes.tail {n : Node} {ns : List Node} (h : NormalNodes (n :: ns)) :
    NormalNodes ns where
  elements e he := h.elements e (List.mem_cons_of_mem _ he)
  solid t ht := h.solid t (List.mem_cons_of_mem _ ht)
  apart := h.apart.tail
  cdata t ht := h.cdata t (List.mem_cons_of_mem _ ht)

/-- What follows a text is no text. -/
theorem NormalNodes.head_isText {t : String} {ns : List Node} (h : NormalNodes (.text t :: ns)) :
    ∀ n ∈ ns.head?, n.isText = false := by
  intro n hn
  have hapart := List.isChain_cons.mp h.apart
  simpa [Node.isText] using hapart.1 n hn

end DocMarkdown
