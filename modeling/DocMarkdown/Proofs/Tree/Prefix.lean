import DocMarkdown.Convert
import DocMarkdown.Proofs.Markup.Extension
import DocMarkdown.Proofs.Tree.Marks

/-!
# Proofs/Tree/Prefix — a text that breaks off

A builder that has read the front of a text is on its way to what it makes of the whole: the tokens
of the front come first, and what they have completed is not changed by those behind
(`root?_of_grow?_append`).  So a text that breaks off anywhere has the tree of the whole text, or
none (`parse_of_front`).
-/

namespace DocMarkdown

open Markup (Reading Token)

namespace Builder

/-! ## Running text -/

/-- Running text adds to the pending text at most. -/
theorem exists_grow?_of_isLiteral (b : Builder) {cs : List Char}
    (h : ∀ c ∈ cs, Token.isLiteral c = true) : ∃ added, b.grow? cs = some (b.addText added) := by
  rw [grow?, Reading.of_eq_of_isLiteral h]
  by_cases hcs : cs = []
  · rw [if_pos hcs]
    exact ⟨[], congrArg some b.addText_nil.symm⟩
  · rw [if_neg hcs]
    exact ⟨Text.unifyLineEnds cs, rfl⟩

/-! ## The root stays -/

@[simp] theorem root?_addText (b : Builder) (cs : List Char) : (b.addText cs).root? = b.root? := by
  rw [addText]
  split <;> rfl

theorem root?_of_feed? {b next : Builder} {ts : List Token} {root : Element}
    (h : b.feed? ts = some next) (hroot : b.root? = some root) : next.root? = some root := by
  induction ts generalizing b with
  | nil => rwa [← Option.some.inj h]
  | cons t ts ih =>
    obtain ⟨frames, pending, root?⟩ := b
    obtain rfl : root? = some root := hroot
    rw [feed?] at h
    rcases hstep : step ⟨frames, pending, some root⟩ t with err | mid
    · simp [hstep, Except.toOption] at h
    · rw [hstep] at h
      exact ih h (root?_of_step hstep)

theorem root?_of_grow? {b next : Builder} {cs : List Char} {root : Element}
    (h : b.grow? cs = some next) (hroot : b.root? = some root) : next.root? = some root := by
  rw [grow?] at h
  split at h
  · contradiction
  · exact root?_of_feed? h hroot

/-- **What the front of a text has completed is the root of the whole.** -/
theorem root?_of_grow?_append {b next final : Builder} {cs more : List Char} {root : Element}
    (h : b.grow? cs = some next) (hroot : next.root? = some root)
    (hfinal : b.grow? (cs ++ more) = some final) : final.root? = some root := by
  have hfault : (Reading.of cs).fault? = none := by
    rw [grow?] at h
    split at h
    · contradiction
    · assumption
  obtain ⟨ts, text, htext, hof⟩ := Reading.exists_prepend_of hfault
  -- the builder behind the tokens of the front that stay as they are
  have hfront := hof []
  rw [List.append_nil, List.append_nil] at hfront
  rw [grow?_of_prepend hfront] at h
  obtain ⟨mid, hmid, hnext⟩ := Option.bind_eq_some_iff.mp h
  obtain ⟨added, hadded⟩ := mid.exists_grow?_of_isLiteral htext
  obtain rfl : mid.addText added = next := Option.some.inj (hadded.symm.trans hnext)
  rw [root?_addText] at hroot
  rw [grow?_of_prepend (hof more), hmid] at hfinal
  exact root?_of_grow? hfinal hroot

end Builder

/-! ## The tree of a front -/

/-- **Two trees of a text and its front are one.** -/
theorem Element.eq_of_parse_append {front behind : String} {root root' : Element}
    (hfront : Element.parse front = .ok root') (h : Element.parse (front ++ behind) = .ok root) :
    root' = root := by
  have hne : front.toList ≠ [] := by
    intro hnil
    rw [String.toList_eq_nil_iff.mp hnil, parse_empty] at hfront
    contradiction
  rw [parse_eq_ok_iff, String.toList_append, dropByteOrderMark_append _ hne] at h
  obtain ⟨b, hb, -, hroot⟩ := parse_eq_ok_iff.mp hfront
  obtain ⟨final, hfinal, -, hroot'⟩ := h
  exact Option.some.inj ((Builder.root?_of_grow?_append hb hroot hfinal).symm.trans hroot')

/-- **A text that breaks off is never taken for another.**  Where a text has a tree, each of its
fronts has the same tree, or none; and each becomes the same page, or none. -/
theorem parse_of_front {front behind : String} {root : Element}
    (h : Element.parse (front ++ behind) = .ok root) :
    ((∃ err, Element.parse front = .error err) ∨ Element.parse front = .ok root) ∧
      ((∃ err, convert front = .error err) ∨ convert front = convert (front ++ behind)) := by
  rcases hfront : Element.parse front with err | root'
  · refine ⟨Or.inl ⟨err, rfl⟩, Or.inl ⟨.load err, ?_⟩⟩
    rw [convert, hfront]
    rfl
  · obtain rfl := Element.eq_of_parse_append hfront h
    refine ⟨Or.inr rfl, Or.inr ?_⟩
    rw [convert, convert, hfront, h]

/-- A document behind a byte order mark, up to the middle of a line end. -/
def brokenFront : String :=
  "\uFEFF<p:summary b='c'>x&amp;<!-- -->y<![CDATA[z]]></p:summary>\r"

/-- What it goes on with. -/
def brokenBehind : String :=
  "\n<!-- d --><other/>"

/-- The tree of both. -/
def brokenTree : Element :=
  ⟨"summary", [("b", "c")], [.text "x&y", .cdata "z"]⟩

theorem parse_of_front_brokenTree :
    Element.parse (brokenFront ++ brokenBehind) = .ok brokenTree ∧
      ((∃ err, Element.parse brokenFront = .error err) ∨
        Element.parse brokenFront = .ok brokenTree) ∧
      ((∃ err, convert brokenFront = .error err) ∨
        convert brokenFront = convert (brokenFront ++ brokenBehind)) := by
  have h : Element.parse (brokenFront ++ brokenBehind) = .ok brokenTree := by decide +kernel
  exact ⟨h, parse_of_front h⟩

end DocMarkdown
