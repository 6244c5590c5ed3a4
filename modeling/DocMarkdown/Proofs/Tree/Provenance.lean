import DocMarkdown.Proofs.Tree.Normal
import DocMarkdown.Proofs.Tree.Parse

/-!
# Proofs/Tree/Provenance — where the text of a tree has come from

A tree has no text of its own.  What an element holds is told among the marks of the root
(`Element.Contains.marks_isInfix`), and a mark comes from tokens: a CDATA section from one, a text
from the running text that was joined to it, character by character.  So the tree has a CR only
where a reference has brought it (`carriageReturn_of_parse`), and a reference that stands for
nothing can do so (`carriageReturn_of_unknownReference`).
-/

namespace DocMarkdown

open Markup (Reading Spelling Token marksAfter marksOfTokens firstElement throughClose)

/-! ## From nodes to marks -/

theorem Node.marks_isInfix {n : Node} {ns : List Node} (h : n ∈ ns) :
    n.marks <:+: marksOfNodes ns := by
  obtain ⟨front, behind, rfl⟩ := List.append_of_mem h
  rw [marksOfNodes_append, marksOfNodes, ← List.append_assoc]
  exact List.infix_append _ _ _

/-- What an element holds is told within it. -/
theorem Element.marksOfNodes_isInfix (e : Element) : marksOfNodes e.children <:+: e.marks := by
  obtain ⟨name, attributes, children⟩ := e
  exact ⟨[.opening name attributes], [.closing name], rfl⟩

/-- **What an element contains is told within it**, in one piece. -/
theorem Element.Contains.marks_isInfix {root e : Element} (h : root.Contains e) :
    e.marks <:+: root.marks := by
  induction h with
  | self => exact List.infix_rfl
  | child _ hmem ih =>
    exact ((Node.marks_isInfix hmem).trans (Element.marksOfNodes_isInfix _)).trans ih

/-- Running text becomes one mark of text at most. -/
theorem eq_of_mem_proseNodes {pending : List Char} {m : Mark}
    (h : m ∈ marksOfNodes (proseNodes pending)) : m = .text (String.ofList pending) := by
  unfold proseNodes at h
  split at h
  · contradiction
  · rw [marksOfNodes_singleton] at h
    exact List.mem_singleton.mp h

/-! ## From marks to tokens

The mark of a CDATA section comes from one token.  A text may be joined from many, so it is not the
text that is followed back but each character of it, to a token or to what was pending. -/

namespace Markup

theorem throughClose_subset (n : Nat) (ts : List Token) : throughClose n ts ⊆ ts := by
  induction ts generalizing n with
  | nil => cases n <;> exact List.Subset.refl _
  | cons t ts ih =>
    cases n with
    | zero => exact List.nil_subset _
    | succ n => exact List.cons_subset_cons t (ih _)

theorem firstElement_subset (ts : List Token) : firstElement ts ⊆ ts := by
  induction ts with
  | nil => exact List.Subset.refl _
  | cons t ts ih =>
    cases t with
    | startTag content => exact List.cons_subset_cons _ (throughClose_subset 1 ts)
    | emptyTag content => exact List.cons_subset_cons _ (List.nil_subset _)
    | _ => exact List.subset_cons_of_subset _ ih

namespace Token

/-- No token stands for text by itself: text is made of what runs side by side. -/
theorem text_notMem_marks (t : Token) (content : String) : Mark.text content ∉ t.marks := by
  cases t <;> simp [marks]

theorem eq_of_cdata_mem_marks {t : Token} {content : String} (h : Mark.cdata content ∈ t.marks) :
    ∃ inner, t = cdata inner ∧ content = String.ofList (Text.unifyLineEnds inner) := by
  cases t <;> simp [marks] at h
  exact ⟨_, rfl, h⟩

end Token

/-- **A mark has been pending, or it is one of the first token, or one of those behind**, where only
running text of the first token can be pending in addition. -/
theorem of_mem_marksAfter_cons {pending : List Char} {t : Token} {ts : List Token} {m : Mark}
    (h : m ∈ marksAfter pending (t :: ts)) :
    m = .text (String.ofList pending) ∨ m ∈ t.marks ∨
      ∃ more, m ∈ marksAfter more ts ∧ ∀ c ∈ more, c ∈ pending ∨ c ∈ t.prose?.getD [] := by
  rw [marksAfter] at h
  cases hprose : t.prose? with
  | some cs =>
    simp only [hprose] at h
    exact .inr (.inr ⟨_, h, fun c hc => List.mem_append.mp hc⟩)
  | none =>
    simp only [hprose] at h
    split at h
    · exact .inr (.inr ⟨pending, h, fun c hc => .inl hc⟩)
    · rcases List.mem_append.mp h with h | h
      · exact .inl (eq_of_mem_proseNodes h)
      · refine .inr ((List.mem_append.mp h).imp_right fun hbehind => ⟨[], hbehind, ?_⟩)
        exact fun c hc => absurd hc List.not_mem_nil

/-- **A character of a text has come with a token of running text**, if it was not pending. -/
theorem exists_prose_of_mem_marksAfter {pending : List Char} {ts : List Token} {content : String}
    {c : Char} (h : Mark.text content ∈ marksAfter pending ts) (hc : c ∈ content.toList) :
    c ∈ pending ∨ ∃ t ∈ ts, c ∈ t.prose?.getD [] := by
  induction ts generalizing pending with
  | nil =>
    have heq := Mark.text.inj (eq_of_mem_proseNodes h)
    rw [heq, String.toList_ofList] at hc
    exact .inl hc
  | cons t ts ih =>
    obtain heq | hmark | ⟨more, hbehind, hmore⟩ := of_mem_marksAfter_cons h
    · rw [Mark.text.inj heq, String.toList_ofList] at hc
      exact .inl hc
    · exact absurd hmark (t.text_notMem_marks content)
    · rcases ih hbehind with hmem | ⟨s, hs, hmem⟩
      · exact (hmore c hmem).imp_right fun hmem => ⟨t, List.mem_cons_self, hmem⟩
      · exact .inr ⟨s, List.mem_cons_of_mem t hs, hmem⟩

/-- **The content of a CDATA section has come with one token.** -/
theorem exists_cdata_of_mem_marksAfter {pending : List Char} {ts : List Token} {content : String}
    (h : Mark.cdata content ∈ marksAfter pending ts) :
    ∃ inner, Token.cdata inner ∈ ts ∧ content = String.ofList (Text.unifyLineEnds inner) := by
  induction ts generalizing pending with
  | nil => exact absurd (eq_of_mem_proseNodes h) nofun
  | cons t ts ih =>
    obtain heq | hmark | ⟨more, hbehind, -⟩ := of_mem_marksAfter_cons h
    · contradiction
    · obtain ⟨inner, rfl, heq⟩ := Token.eq_of_cdata_mem_marks hmark
      exact ⟨inner, List.mem_cons_self, heq⟩
    · obtain ⟨inner, hmem, heq⟩ := ih hbehind
      exact ⟨inner, List.mem_cons_of_mem t hmem, heq⟩

end Markup

/-! ## From a tree to its text -/

section Tree

variable {text : String} {root e : Element}

/-- The marks of a tree are those of tokens of its text. -/
theorem Element.mem_marksAfter_of_parse (h : Element.parse text = .ok root)
    (he : root.Contains e) {n : Node} (hn : n ∈ e.children) {m : Mark} (hm : m ∈ n.marks) :
    m ∈ marksAfter [] (firstElement (Reading.of (dropByteOrderMark text.toList)).tokens) := by
  rw [← Markup.marksOfTokens_eq, ← Element.marks_of_parse h]
  exact ((Node.marks_isInfix hn).trans (e.marksOfNodes_isInfix.trans he.marks_isInfix)).subset hm

/-- **A CDATA section of a tree is one of its text**, with its line ends as one. -/
theorem Element.exists_cdata_of_parse (h : Element.parse text = .ok root)
    (he : root.Contains e) {content : String} (hn : .cdata content ∈ e.children) :
    ∃ inner, Token.cdata inner ∈ (Reading.of (dropByteOrderMark text.toList)).tokens ∧
      content = String.ofList (Text.unifyLineEnds inner) := by
  have hmark := Element.mem_marksAfter_of_parse h he hn (List.mem_singleton_self _)
  obtain ⟨inner, hmem, heq⟩ := Markup.exists_cdata_of_mem_marksAfter hmark
  exact ⟨inner, Markup.firstElement_subset _ hmem, heq⟩

/-- **A character of a text of a tree has come with running text.** -/
theorem Element.exists_prose_of_parse (h : Element.parse text = .ok root)
    (he : root.Contains e) {content : String} (hn : .text content ∈ e.children) {c : Char}
    (hc : c ∈ content.toList) :
    ∃ t ∈ (Reading.of (dropByteOrderMark text.toList)).tokens, c ∈ t.prose?.getD [] := by
  have hmark := Element.mem_marksAfter_of_parse h he hn (List.mem_singleton_self _)
  obtain ⟨t, ht, hmem⟩ :=
    (Markup.exists_prose_of_mem_marksAfter hmark hc).resolve_left List.not_mem_nil
  exact ⟨t, Markup.firstElement_subset _ ht, hmem⟩

end Tree

/-! ## Line ends -/

namespace Markup

/-- Running text has a CR only if it is a reference. -/
theorem Token.eq_reference_of_carriageReturn {t : Token} (h : '\r' ∈ t.prose?.getD []) :
    ∃ name, t = reference name ∧ '\r' ∈ referenceText name := by
  cases t with
  | text content => exact absurd h (Text.carriageReturn_not_mem_unifyLineEnds content)
  | reference name => exact ⟨name, rfl, h⟩
  | _ => contradiction

/-- A reference brings a CR that it stands for, or one of its own that it keeps. -/
theorem carriageReturn_mem_referenceText_iff (name : List Char) :
    '\r' ∈ referenceText name ↔ Spelling.text.resolve? name = some '\r' ∨
      Spelling.text.resolve? name = none ∧ '\r' ∈ name := by
  unfold referenceText
  cases Spelling.text.resolve? name with
  | some c => simp [eq_comm]
  | none => simp

end Markup

/-- **A CR in a tree has come by a reference.**  No CDATA section has one, and a text has one only
if the document refers to the character, or has one between `&` and `;` where nothing is referred
to. -/
theorem carriageReturn_of_parse {text : String} {root e : Element}
    (h : Element.parse text = .ok root) (he : root.Contains e) :
    (∀ content, .cdata content ∈ e.children → '\r' ∉ content.toList) ∧
      ∀ content, .text content ∈ e.children → '\r' ∈ content.toList →
        ∃ name, Token.reference name ∈ (Reading.of (dropByteOrderMark text.toList)).tokens ∧
          (Spelling.text.resolve? name = some '\r' ∨
            Spelling.text.resolve? name = none ∧ '\r' ∈ name) := by
  refine ⟨fun content hn => ?_, fun content hn hc => ?_⟩
  · obtain ⟨inner, -, rfl⟩ := Element.exists_cdata_of_parse h he hn
    rw [String.toList_ofList]
    exact Text.carriageReturn_not_mem_unifyLineEnds inner
  · obtain ⟨t, ht, hmem⟩ := Element.exists_prose_of_parse h he hn hc
    obtain ⟨name, rfl, hname⟩ := Token.eq_reference_of_carriageReturn hmem
    exact ⟨name, ht, (Markup.carriageReturn_mem_referenceText_iff name).mp hname⟩

/-- All line ends in all places: none is left as it was. -/
theorem carriageReturn_of_parse_mixedLines :
    let text := "<a>x\r\n&y;\r<!--\r--><![CDATA[\r\r\n]]></a>"
    let root : Element := ⟨"a", [], [.text "x\n&y;\n", .cdata "\n\n"]⟩
    Element.parse text = .ok root ∧ root.Contains root ∧
      (∀ content, .cdata content ∈ root.children → '\r' ∉ content.toList) ∧
      ∀ content, .text content ∈ root.children → '\r' ∈ content.toList →
        ∃ name, Token.reference name ∈ (Reading.of (dropByteOrderMark text.toList)).tokens ∧
          (Spelling.text.resolve? name = some '\r' ∨
            Spelling.text.resolve? name = none ∧ '\r' ∈ name) := by
  intro text root
  have h : Element.parse text = .ok root := by decide +kernel
  exact ⟨h, .self, carriageReturn_of_parse h .self⟩

/-- **A reference that stands for nothing keeps the CR in its name**, though nothing in the document
refers to the character. -/
theorem carriageReturn_of_unknownReference :
    let text := "<a>&x\ry;</a>"
    let root : Element := ⟨"a", [], [.text "&x\ry;"]⟩
    Element.parse text = .ok root ∧
      (∀ name, Token.reference name ∈ (Reading.of (dropByteOrderMark text.toList)).tokens →
        Spelling.text.resolve? name ≠ some '\r') ∧
      .text "&x\ry;" ∈ root.children ∧ '\r' ∈ "&x\ry;".toList := by
  intro text root
  have hof : Reading.of (dropByteOrderMark text.toList) =
      ⟨[.startTag ['a'], .reference ['x', '\r', 'y'], .endTag ['a']], none⟩ := by
    decide +kernel
  refine ⟨by decide +kernel, fun name hname => ?_, List.mem_singleton_self _, by decide⟩
  rw [hof] at hname
  obtain rfl : name = ['x', '\r', 'y'] := by simpa using hname
  decide

end DocMarkdown
