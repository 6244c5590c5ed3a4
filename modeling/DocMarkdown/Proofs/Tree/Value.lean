import DocMarkdown.Proofs.Markup.Value
import DocMarkdown.Proofs.Markup.Whole
import DocMarkdown.Proofs.Tree.Tidy

/-!
# Proofs/Tree/Value — a value and a text are read alike

The attributes of an element are found by their keys, and each has the value that its tag spells
(`attr?_close`).  Running text is read by other rules, piece by piece, but what a value unescapes to
is what the same characters grow to between two tags (`grow?_of_unescapes`), so both readers agree
on every value that has no piece of markup and no CR in it (`value_of_tagAttributes`).
-/

namespace DocMarkdown

open Markup (Attribute Reading Resolvable Token Unescapes endTagName plainAttributes tagAttributes)

/-! ## The attributes of an element -/

namespace Frame

variable {content : List Char} {f : Frame}

/-- What a tag opens is tidy, closed at once. -/
theorem tidy_close (hf : ofTag content = .ok f) : f.close.Tidy := by
  rw [eq_of_ofTag hf]
  exact ⟨fun _ => Markup.declaresNamespace_of_mem_plainAttributes,
    Markup.nodup_plainAttributes content, nofun, .nil, nofun⟩

/-- **A plain attribute is found by its key**, with the value that it stands for. -/
theorem attr?_close {as : List Attribute} {a : Attribute} (hf : ofTag content = .ok f)
    (has : tagAttributes content = .ok as) (ha : a ∈ as) (hplain : a.isNamespace = false) :
    f.close.attr? (String.ofList a.key) = some (String.ofList a.value) := by
  rw [(tidy_close hf).attr?_eq_some_iff, eq_of_ofTag hf]
  change a.pair ∈ plainAttributes content
  rw [plainAttributes, has]
  exact List.mem_map_of_mem (List.mem_filter.mpr ⟨ha, by rw [hplain]; rfl⟩)

end Frame

/-! ## An element of one text

What stands between the tags has only to grow to a text, whatever comes behind it.  How it is
spelled does not matter here. -/

namespace Markup.Token

theorem meets_startTag (content rest : List Char) : (startTag content).Meets rest := by
  intro text htext
  contradiction

theorem meets_endTag (content rest : List Char) : (endTag content).Meets rest := by
  intro text htext
  contradiction

end Markup.Token

/-- **An element as it is written**: content between a start tag and an end tag. -/
def writtenBetween (opening content closing : List Char) : List Char :=
  (Token.startTag opening).source ++ (content ++ (Token.endTag closing).source)

/-- **A start tag and an end tag make an element** of what stands between them. -/
structure Brackets (opening closing : List Char) (f : Frame) : Prop where
  start : (Token.startTag opening).IsWhole
  stop : (Token.endTag closing).IsWhole
  ofTag : Frame.ofTag opening = .ok f
  tag : f.tag = endTagName closing

namespace Builder

/-- A tag and the end tag that repeats its name make a complete element. -/
theorem closeElement_openElement (b : Builder) (f : Frame) :
    (b.openElement f).closeElement f.tag = .ok (b.addElement f.close) :=
  if_pos rfl

/-- **Running text grows to what it unescapes to**, if it is neither markup nor changed for its line
ends. -/
theorem grow?_of_unescapes {raw ds : List Char} (h : Unescapes raw ds) (hcr : '\r' ∉ raw)
    (hlt : '<' ∉ raw) (b : Builder) (rest : List Char) :
    b.grow? (raw ++ rest) = (b.addText ds).grow? rest := by
  induction h generalizing b with
  | nil => rw [addText_nil, List.nil_append]
  | @literal c cs ds hc _ ih =>
    rw [List.mem_cons, not_or] at hcr hlt
    have hliteral : Token.isLiteral c = true := by
      simp [Token.isLiteral, hc, Ne.symm hlt.1]
    rw [List.cons_append, grow?_literal b _ hliteral (Ne.symm hcr.1), ih hcr.2 hlt.2,
      addText_addText, List.singleton_append]
  | @reference name cs ds c hname _ ih =>
    simp only [List.mem_cons, List.mem_append, not_or] at hcr hlt
    rw [List.cons_append, List.append_assoc, List.cons_append,
      grow?_reference b _ _ hname.inReference, Markup.referenceText_eq_singleton hname.text,
      ih hcr.2.2.2 hlt.2.2.2, addText_addText, List.singleton_append]

/-- **What grows to text between two tags is an element of that text alone.** -/
theorem grow?_writtenBetween {opening content closing cs : List Char} {f : Frame}
    (h : Brackets opening closing f) (hsolid : cs.all Text.isBlank = false)
    (hcontent : ∀ (b : Builder) rest, b.grow? (content ++ rest) = (b.addText cs).grow? rest)
    (b : Builder) (rest : List Char) :
    b.grow? (writtenBetween opening content closing ++ rest)
      = (b.settle.addElement ⟨f.name, f.attributes, [.text (String.ofList cs)]⟩).grow? rest := by
  have hstart : b.step (.startTag opening) = .ok (b.settle.openElement f) := by
    rw [step, h.ofTag]
    rfl
  have hstop : ((b.settle.openElement f).addText cs).step (.endTag closing)
      = .ok (b.settle.addElement ⟨f.name, f.attributes, [.text (String.ofList cs)]⟩) := by
    rw [step, settle_addText f b.pending_settle hsolid, ← h.tag]
    refine (closeElement_openElement b.settle (f.push _)).trans ?_
    rw [Frame.eq_of_ofTag h.ofTag]
    rfl
  rw [writtenBetween, List.append_assoc, List.append_assoc,
    grow?_of_step (Reading.of_source h.start (Token.meets_startTag _ _)) hstart, hcontent,
    grow?_of_step (Reading.of_source h.stop (Token.meets_endTag _ _)) hstop]

end Builder

theorem Element.parse_writtenBetween {opening content closing cs : List Char} {f : Frame}
    (h : Brackets opening closing f) (hsolid : cs.all Text.isBlank = false)
    (hcontent : ∀ (b : Builder) rest, b.grow? (content ++ rest) = (b.addText cs).grow? rest) :
    Element.parse (String.ofList (writtenBetween opening content closing))
      = .ok ⟨f.name, f.attributes, [.text (String.ofList cs)]⟩ := by
  have hgrow := Builder.grow?_writtenBetween h hsolid hcontent .empty []
  have hmark : dropByteOrderMark (writtenBetween opening content closing)
      = writtenBetween opening content closing := rfl
  rw [List.append_nil, Builder.grow?_nil] at hgrow
  rw [Element.parse_eq_ok_iff, String.toList_ofList, hmark]
  exact ⟨_, hgrow, rfl, rfl⟩

/-! ## Both readers -/

/-- **The value of an attribute**: what its characters unescape to where every `&` in them begins a
reference, and otherwise these characters.  In an element they are read for the same text. -/
theorem value_of_tagAttributes {content : List Char} {as : List Attribute} {a : Attribute}
    (has : tagAttributes content = .ok as) (ha : a ∈ as) (hplain : a.isNamespace = false) :
    (∃ f, Frame.ofTag content = .ok f ∧ ∀ children, (Element.mk f.name f.attributes children).attr?
      (String.ofList a.key) = some (String.ofList a.value)) ∧
    (Resolvable a.raw → ∀ ds, Unescapes a.raw ds ↔ ds = a.value) ∧
    (¬ Resolvable a.raw → a.value = a.raw) ∧
    (Resolvable a.raw → '\r' ∉ a.raw → '<' ∉ a.raw → a.value.all Text.isBlank = false →
      ∀ opening closing f, Brackets opening closing f →
        let e : Element := ⟨f.name, f.attributes, [.text (String.ofList a.value)]⟩
        Element.parse (String.ofList (writtenBetween opening a.raw closing)) = .ok e ∧
        ∀ (b : Builder) rest, b.grow? (writtenBetween opening a.raw closing ++ rest)
          = (b.settle.addElement e).grow? rest) := by
  refine ⟨?_, fun h ds => Markup.unescapes_iff_eq_attributeValue h,
    Markup.attributeValue_of_not_resolvable, fun h hcr hlt hsolid opening closing f hf => ?_⟩
  · obtain ⟨f, hf⟩ := Frame.exists_ofTag_iff.mpr ⟨as, has⟩
    exact ⟨f, hf, fun children => Frame.attr?_close hf has ha hplain⟩
  · have hgrow := Builder.grow?_of_unescapes
      ((Markup.unescapes_iff_eq_attributeValue h).mpr rfl) hcr hlt
    exact ⟨Element.parse_writtenBetween hf hsolid hgrow,
      Builder.grow?_writtenBetween hf hsolid hgrow⟩

/-- A tag with a value in which a character is spelled in two ways, and one that keeps its
references. -/
def starTag : List Char :=
  "e k='&#x2A;&#0042;\n&gt;' j='&gt;&#x2a'".toList

theorem value_of_tagAttributes_starTag :
    let a : Attribute := ⟨['k'], 2, "&#x2A;&#0042;\n&gt;".toList⟩
    let b : Attribute := ⟨['j'], 25, "&gt;&#x2a".toList⟩
    tagAttributes starTag = .ok [a, b] ∧ Resolvable a.raw ∧ Unescapes a.raw "**\n>".toList ∧
      ¬ Resolvable b.raw ∧ b.value = b.raw ∧
      Element.parse (String.ofList (writtenBetween ['e'] a.raw ['e']))
        = .ok ⟨"e", [], [.text "**\n>"]⟩ := by
  intro a b
  have has : tagAttributes starTag = .ok [a, b] := by decide +kernel
  have hresolvable : Resolvable a.raw := by decide +kernel
  have hkept : ¬ Resolvable b.raw := by decide +kernel
  have hvalue : a.value = "**\n>".toList := by decide +kernel
  have hbrackets : Brackets ['e'] ['e'] ⟨['e'], [], []⟩ :=
    ⟨⟨by rintro c ⟨⟩; decide, by decide, rfl⟩, rfl, by decide +kernel, by decide +kernel⟩
  obtain ⟨-, hunescapes, -, hparse⟩ := value_of_tagAttributes has List.mem_cons_self rfl
  obtain ⟨-, -, hraw, -⟩ := value_of_tagAttributes (a := b) has (by simp) rfl
  have hroot := (hparse hresolvable (by decide) (by decide) (by decide +kernel) _ _ _ hbrackets).1
  rw [hvalue] at hroot
  exact ⟨has, hresolvable, (hunescapes hresolvable _).mpr hvalue.symm, hkept, hraw hkept, hroot⟩

end DocMarkdown
