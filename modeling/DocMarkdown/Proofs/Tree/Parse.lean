import DocMarkdown.Proofs.Tree.Descent
import DocMarkdown.Proofs.Tree.Marks
import DocMarkdown.Proofs.Tree.Nesting

/-!
# Proofs/Tree/Parse — what a text is read as

A text has a tree when its tokens can be read to the end, its tags nest, and there is an element
among them; the tree is then the first element's, mark by mark (`parse_of_tokens`).
-/

namespace DocMarkdown

open Markup (Reading Token firstElement marksOfTokens openTags)

/-! ## The first element -/

namespace Markup

/-- Tokens that have a first element have marks of it. -/
theorem marksOfTokens_firstElement_eq_nil_iff (ts : List Token) :
    marksOfTokens (firstElement ts) = [] ↔ firstElement ts = [] := by
  induction ts with
  | nil => exact ⟨fun _ => rfl, fun _ => rfl⟩
  | cons t ts ih =>
    cases t with
    | startTag content | emptyTag content =>
      rw [firstElement, marksOfTokens_eq]
      simp [marksAfter, Token.prose?, Token.isSilent, Token.marks]
    | _ => exact ih

end Markup

theorem Element.marks_ne_nil (e : Element) : e.marks ≠ [] := by
  obtain ⟨name, attributes, children⟩ := e
  exact List.cons_ne_nil _ _

/-! ## The tree of a text

Three parts come together here: tags nest where tokens have their places (`feed?_nesting`), the
first element is what is told (`told_of_feed?`), and the descent finds the same tree
(`ofReading_eq_descend`). -/

namespace Builder

/-- **What is told at the end**, when no element is open: the marks of the root, if there is one. -/
theorem told_nil_of_closed {b : Builder} (h : b.frames = []) :
    b.told [] = (b.root?.map Element.marks).getD [] := by
  obtain ⟨frames, pending, root?⟩ := b
  obtain rfl : frames = [] := h
  cases root? <;> rfl

end Builder

/-- The tree of a text is that of the builder behind its tokens. -/
theorem Element.parse_eq_ok_iff_feed? {text : String} {root : Element} :
    Element.parse text = .ok root ↔
      (Reading.of (dropByteOrderMark text.toList)).fault? = none ∧
        ∃ b, Builder.empty.feed? (Reading.of (dropByteOrderMark text.toList)).tokens = some b ∧
          b.frames = [] ∧ b.root? = some root := by
  rw [Element.parse_eq_ok_iff, Builder.grow?]
  cases (Reading.of (dropByteOrderMark text.toList)).fault? <;> simp

/-- **The tree of a text is its first element**, mark by mark. -/
theorem Element.marks_of_parse {text : String} {root : Element}
    (h : Element.parse text = .ok root) : root.marks
      = marksOfTokens (firstElement (Reading.of (dropByteOrderMark text.toList)).tokens) := by
  obtain ⟨-, b, hfeed, hclosed, hb⟩ := Element.parse_eq_ok_iff_feed?.mp h
  have htold := Builder.told_of_feed? hfeed
  rw [Builder.told_nil_of_closed hclosed, hb] at htold
  exact htold

/-- **A text has a tree when its tokens come without a fault**, their attributes can be read, their
tags nest and are closed, and there is an element among them. -/
theorem Element.exists_parse_iff {text : String} {reading : Reading}
    (hreading : Reading.of (dropByteOrderMark text.toList) = reading) :
    (∃ root, Element.parse text = .ok root) ↔
      reading.fault? = none ∧ (∀ t ∈ reading.tokens, t.Readable) ∧
        openTags [] reading.tokens = some [] ∧ firstElement reading.tokens ≠ [] := by
  subst hreading
  constructor
  · rintro ⟨root, hroot⟩
    obtain ⟨hfault, b, hfeed, hclosed, -⟩ := Element.parse_eq_ok_iff_feed?.mp hroot
    obtain ⟨hreadable, hopen⟩ := (Builder.feed?_nesting .empty _ []).mp
      ⟨b, hfeed, by rw [Builder.tags, hclosed]; rfl⟩
    refine ⟨hfault, hreadable, hopen, fun hnone => root.marks_ne_nil ?_⟩
    rw [Element.marks_of_parse hroot, hnone]
    rfl
  · rintro ⟨hfault, hreadable, hopen, hfirst⟩
    obtain ⟨b, hfeed, htags⟩ := (Builder.feed?_nesting .empty _ []).mpr ⟨hreadable, hopen⟩
    have hclosed : b.frames = [] := List.map_eq_nil_iff.mp htags
    have htold := Builder.told_of_feed? hfeed
    rw [Builder.told_nil_of_closed hclosed] at htold
    obtain ⟨root, hb⟩ : ∃ root, b.root? = some root := by
      -- without a root there would be no mark of the first element
      refine Option.ne_none_iff_exists'.mp fun hnone => hfirst ?_
      rw [hnone] at htold
      exact (Markup.marksOfTokens_firstElement_eq_nil_iff _).mp htold.symm
    exact ⟨root, Element.parse_eq_ok_iff_feed?.mpr ⟨hfault, b, hfeed, hclosed, hb⟩⟩

/-- **What a text is read as.**  A builder reads it as a descent would.  It has a tree exactly when
its tokens come without a fault, all attributes can be read, all tags nest and are closed, and there
is an element; the tree has the marks of the first one. -/
theorem parse_of_tokens (text : String) :
    let reading := Reading.of (dropByteOrderMark text.toList)
    Element.parse text = Element.descend reading ∧
      ((∃ root, Element.parse text = .ok root) ↔
        reading.fault? = none ∧ (∀ t ∈ reading.tokens, t.Readable) ∧
          openTags [] reading.tokens = some [] ∧ firstElement reading.tokens ≠ []) ∧
      ∀ root, Element.parse text = .ok root →
        root.marks = marksOfTokens (firstElement reading.tokens) := by
  intro reading
  refine ⟨Element.ofReading_eq_descend reading, Element.exists_parse_iff rfl, ?_⟩
  intro root hroot
  exact Element.marks_of_parse hroot

end DocMarkdown
