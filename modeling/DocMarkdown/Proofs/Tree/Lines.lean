import DocMarkdown.Convert
import DocMarkdown.Proofs.Markup.TagLines
import DocMarkdown.Proofs.Tree.Parse

/-!
# Proofs/Tree/Lines — the tree of a text with other line ends

A builder takes a token with other line ends for the token itself (`toOption_step_withLineEnd`):
text and CDATA have one line end for all, notes are left out, and in a tag line ends are space.
Only the name of a reference and the values of attributes are kept as they are written, so a text
without line ends there has the same tree and the same page in whichever way its lines end
(`parse_withLineEnd`).
-/

namespace DocMarkdown

open Markup (Attribute Reading Token tagAttributes tagName endTagName)
open Text (LineEnd withLineEnd)

variable (e : LineEnd)

/-! ## Tags

Attributes of a tag with other line ends stand at other places, but a frame has only their keys and
values.  So a frame is told by these (`toOption_ofTag`), and these are compared. -/

namespace Markup

/-- **Nothing that is kept as it is written has a line end in it**: no name of a reference, and no
value of an attribute. -/
structure Token.KeepsNoLineEnd (t : Token) : Prop where
  name : ∀ name, t = .reference name → '\n' ∉ name
  values : ∀ content as, t.opening? = some content → tagAttributes content = .ok as →
    ∀ a ∈ as, '\n' ∉ a.raw

/-- The attribute that has its key and its value somewhere. -/
def Attribute.ofBare (kv : List Char × List Char) : Attribute :=
  ⟨kv.1, 0, kv.2⟩

/-- Plain attributes are told by keys and values alone. -/
theorem map_pair_filter (as : List Attribute) :
    (as.filter (!·.isNamespace)).map Attribute.pair
      = ((as.map Attribute.bare).filter fun kv => !(Attribute.ofBare kv).isNamespace).map
          (Attribute.pair ∘ Attribute.ofBare) := by
  rw [List.filter_map, List.map_map]
  rfl

end Markup

namespace Frame

/-- The open element of a tag, from keys and values. -/
def ofBare (tag : List Char) (kvs : List (List Char × List Char)) : Frame where
  tag := tag
  attributes := (kvs.filter fun kv => !(Attribute.ofBare kv).isNamespace).map
    (Attribute.pair ∘ Attribute.ofBare)
  children := []

/-- A tag opens an element of its name, its keys and its values. -/
theorem toOption_ofTag (content : List Char) : (ofTag content).toOption =
    ((tagAttributes content).toOption.map (List.map Attribute.bare)).map
      (ofBare (tagName content)) := by
  rw [ofTag]
  rcases tagAttributes content with error | as
  · rfl
  · exact congrArg (fun attributes => some (Frame.mk (tagName content) attributes []))
      (Markup.map_pair_filter as)

/-- **A tag opens the same element** if there are no line ends in its values. -/
theorem toOption_ofTag_withLineEnd {content : List Char}
    (h : ∀ as, tagAttributes content = .ok as → ∀ a ∈ as, '\n' ∉ a.raw) :
    (ofTag (withLineEnd e content)).toOption = (ofTag content).toOption := by
  have hvalues : (tagAttributes content).toOption.map (List.map (Attribute.bareWithLineEnd e))
      = (tagAttributes content).toOption.map (List.map Attribute.bare) := by
    rcases has : tagAttributes content with error | as
    · rfl
    · refine congrArg some (List.map_congr_left fun a ha => ?_)
      rw [Attribute.bareWithLineEnd, Text.withLineEnd_of_not_mem e (h as has a ha)]
      rfl
  rw [toOption_ofTag, toOption_ofTag, Markup.tagName_withLineEnd,
    Markup.map_tagAttributes_withLineEnd, hvalues]

end Frame

/-! ## Builders

The name in an end tag is taken up to the space at its end, and other line ends within it would
stay.  They make no difference as long as the names of open elements have no space, and the name of
a tag never has any. -/

namespace Builder

/-- No space is in the name of an open element. -/
def Spaceless (tags : List (List Char)) : Prop :=
  ∀ tag ∈ tags, tag.all (!Markup.isSpace ·) = true

theorem spaceless_of_nest {opened opened' : List (List Char)} {t : Token}
    (h : t.nest opened = some opened') (hopened : Spaceless opened) : Spaceless opened' := by
  cases t with
  | startTag content =>
    obtain rfl := Option.some.inj h
    exact List.forall_mem_cons.mpr ⟨List.all_takeWhile, hopened⟩
  | endTag content =>
    rcases opened with _ | ⟨tag, tags⟩
    · contradiction
    · rw [Token.nest] at h
      split at h
      · obtain rfl := Option.some.inj h
        exact (List.forall_mem_cons.mp hopened).2
      · contradiction
  | _ =>
    obtain rfl := Option.some.inj h
    exact hopened

theorem toOption_closeElement_withLineEnd {b : Builder} (hb : Spaceless b.tags)
    (content : List Char) :
    (b.closeElement (endTagName (withLineEnd e content))).toOption
      = (b.closeElement (endTagName content)).toOption := by
  rw [closeElement, closeElement]
  rcases hframes : b.frames with _ | ⟨f, fs⟩
  · rfl
  · have htag : f.tag.all (!Markup.isSpace ·) = true := hb f.tag (by simp [tags, hframes])
    have hiff := Markup.eq_endTagName_withLineEnd_iff e htag content
    simp only
    by_cases hname : f.tag = endTagName content
    · rw [if_pos hname, if_pos (hiff.mpr hname)]
    · rw [if_neg hname, if_neg (mt hiff.mp hname)]
      rfl

/-- **A step does not see line ends** in a token that keeps none. -/
theorem toOption_step_withLineEnd {b : Builder} {t : Token} (hb : Spaceless b.tags)
    (ht : t.KeepsNoLineEnd) (hreturn : '\r' ∉ t.source) :
    (b.step (t.withLineEnd e)).toOption = (b.step t).toOption := by
  have hunify : ∀ {cs}, '\r' ∉ cs →
      Text.unifyLineEnds (withLineEnd e cs) = Text.unifyLineEnds cs := by
    intro cs hcs
    rw [Text.unifyLineEnds_withLineEnd e hcs, Text.unifyLineEnds_of_not_mem hcs]
  cases t with
  | text content =>
    have hcontent : '\r' ∉ content := hreturn
    rw [Token.withLineEnd, step, step, hunify hcontent]
  | reference name =>
    rw [Token.withLineEnd, Text.withLineEnd_of_not_mem e (ht.name name rfl)]
  | cdata content =>
    have hcontent : '\r' ∉ content := fun h => hreturn (by simp [Token.source, h])
    rw [Token.withLineEnd, step, step, hunify hcontent]
  | startTag content | emptyTag content =>
    rw [Token.withLineEnd, step, step, Except.toOption_map, Except.toOption_map,
      Frame.toOption_ofTag_withLineEnd e fun as => ht.values content as rfl]
  | endTag content =>
    exact toOption_closeElement_withLineEnd e (by rwa [tags_settle]) content
  | _ => rfl

/-- **A builder does not see line ends** in tokens that keep none. -/
theorem feed?_withLineEnd {b : Builder} {ts : List Token} (hb : Spaceless b.tags)
    (hts : ∀ t ∈ ts, t.KeepsNoLineEnd ∧ '\r' ∉ t.source) :
    b.feed? (ts.map (Token.withLineEnd e)) = b.feed? ts := by
  induction ts generalizing b with
  | nil => rfl
  | cons t ts ih =>
    obtain ⟨⟨ht, hreturn⟩, hts⟩ := List.forall_mem_cons.mp hts
    rw [List.map_cons, feed?, feed?, toOption_step_withLineEnd e hb ht hreturn]
    rcases hstep : b.step t with error | next
    · rfl
    · obtain ⟨-, hnest⟩ := (step_nesting b t next.tags).mp ⟨next, hstep, rfl⟩
      exact ih (spaceless_of_nest hnest hb) hts

end Builder

/-! ## Trees -/

theorem dropByteOrderMark_withLineEnd (cs : List Char) :
    dropByteOrderMark (withLineEnd e cs) = withLineEnd e (dropByteOrderMark cs) := by
  rcases cs with _ | ⟨c, cs⟩
  · rfl
  · by_cases hfeed : c = '\n'
    · subst hfeed
      cases e <;> rfl
    · rw [Text.withLineEnd_cons e cs hfeed]
      by_cases hmark : c = '\uFEFF'
      · subst hmark
        rfl
      · rw [dropByteOrderMark_cons _ hmark, dropByteOrderMark_cons _ hmark,
          Text.withLineEnd_cons e cs hfeed]

/-- A text has a tree in whichever way its lines end. -/
theorem Element.parse_withLineEnd_eq_ok_iff {text : String} {root : Element}
    (hreturn : '\r' ∉ text.toList)
    (hkeeps : ∀ t ∈ (Reading.of (dropByteOrderMark text.toList)).tokens, t.KeepsNoLineEnd) :
    Element.parse (String.ofList (withLineEnd e text.toList)) = .ok root
      ↔ Element.parse text = .ok root := by
  obtain ⟨htokens, hfault⟩ := Reading.of_withLineEnd e (dropByteOrderMark text.toList)
  rw [Element.parse_eq_ok_iff_feed?, Element.parse_eq_ok_iff_feed?, String.toList_ofList,
    dropByteOrderMark_withLineEnd, htokens, hfault]
  refine and_congr_right fun hnone => ?_
  have hreturn' : ∀ t ∈ (Reading.of (dropByteOrderMark text.toList)).tokens, '\r' ∉ t.source := by
    intro t ht hmem
    have hsource := Markup.Reading.flatMap_source_of hnone
    refine hreturn (dropByteOrderMark_subset _ ?_)
    rw [← hsource]
    exact List.mem_flatMap.mpr ⟨t, ht, hmem⟩
  rw [Builder.feed?_withLineEnd e (fun _ h => absurd h List.not_mem_nil)
    fun t ht => ⟨hkeeps t ht, hreturn' t ht⟩]

/-- **A text has the same tree and the same page in whichever way its lines end**, if it has no line
ends where they are kept: in the name of a reference, or in the value of an attribute. -/
theorem parse_withLineEnd {text : String} (hreturn : '\r' ∉ text.toList)
    (hkeeps : ∀ t ∈ (Reading.of (dropByteOrderMark text.toList)).tokens, t.KeepsNoLineEnd) :
    let text' := String.ofList (withLineEnd e text.toList)
    (∀ root, Element.parse text' = .ok root ↔ Element.parse text = .ok root) ∧
      ((∃ root, Element.parse text = .ok root) → convert text' = convert text) ∧
      ∀ page, convert text' = .ok page ↔ convert text = .ok page := by
  intro text'
  have hparse : ∀ root, Element.parse text' = .ok root ↔ Element.parse text = .ok root :=
    fun _ => Element.parse_withLineEnd_eq_ok_iff e hreturn hkeeps
  have hsame : (∃ root, Element.parse text = .ok root) → convert text' = convert text := by
    rintro ⟨root, h⟩
    rw [convert, convert, h, (hparse root).mpr h]
  refine ⟨hparse, hsame, fun page => ?_⟩
  rcases h : Element.parse text with error | root
  · rcases h' : Element.parse text' with error' | root
    · simp [convert, h, h', Except.mapError, bind, Except.bind]
    · rw [(hparse root).mp h'] at h
      contradiction
  · rw [hsame ⟨root, h⟩]

/-- Line ends in all places but those where they are kept, as pairs. -/
theorem parse_withLineEnd_pairs :
    let text := "<a\nk='v'\n>x\n&lt;<![CDATA[\n\n]]></a\n>"
    let text' := "<a\r\nk='v'\r\n>x\r\n&lt;<![CDATA[\r\n\r\n]]></a\r\n>"
    let root : Element := ⟨"a", [("k", "v")], [.text "x\n<", .cdata "\n\n"]⟩
    '\r' ∉ text.toList ∧
      (∀ t ∈ (Reading.of (dropByteOrderMark text.toList)).tokens, t.KeepsNoLineEnd) ∧
      Element.parse text = .ok root ∧ Element.parse text' = .ok root ∧
      convert text' = convert text := by
  intro text text' root
  have hof : Reading.of (dropByteOrderMark text.toList) = ⟨[.startTag "a\nk='v'\n".toList,
      .text ['x', '\n'], .reference ['l', 't'], .cdata ['\n', '\n'],
      .endTag ['a', '\n']], none⟩ := by
    decide +kernel
  have hattributes : tagAttributes "a\nk='v'\n".toList = .ok [⟨['k'], 2, ['v']⟩] := by
    decide +kernel
  have hparse : Element.parse text = .ok root := by decide +kernel
  have hreturn : '\r' ∉ text.toList := by decide
  have hkeeps : ∀ t ∈ (Reading.of (dropByteOrderMark text.toList)).tokens, t.KeepsNoLineEnd := by
    rw [hof]
    intro t ht
    refine ⟨fun name hname => ?_, fun content as hcontent has => ?_⟩
    · subst hname
      obtain rfl : name = ['l', 't'] := by simpa using ht
      decide
    · rcases List.mem_cons.mp ht with rfl | hothers
      · obtain rfl := Option.some.inj hcontent
        obtain rfl := Except.ok.inj (hattributes.symm.trans has)
        decide
      · have hnone : t.opening? = none := by
          simp only [List.mem_cons, List.not_mem_nil, or_false] at hothers
          obtain rfl | rfl | rfl | rfl := hothers <;> rfl
        rw [hnone] at hcontent
        contradiction
  obtain ⟨hsame, hpage, -⟩ := parse_withLineEnd .pair hreturn hkeeps
  have htext' : String.ofList (withLineEnd .pair text.toList) = text' := by decide +kernel
  rw [htext'] at hsame hpage
  exact ⟨hreturn, hkeeps, hparse, (hsame root).mpr hparse, hpage ⟨root, hparse⟩⟩

end DocMarkdown
