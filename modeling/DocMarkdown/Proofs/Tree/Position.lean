import DocMarkdown.Proofs.Markup.Fault
import DocMarkdown.Proofs.Tree.Ending
import DocMarkdown.Proofs.Tree.Nesting

/-!
# Proofs/Tree/Position — the place where a text is malformed

The place that is told with an error parts the text between two characters.  An error in a tag's
attributes is told behind the tag, and stays the same whatever follows; any other error is told
before what is wrong, so that the text up to there is not malformed (`place_of_malformed`).
-/

namespace DocMarkdown

open Markup (AttributeError Fault MarkupError Reading Token tagAttributes)
open Text (width)

/-! ## Places

A place is counted from behind the byte order mark that a text may have, and the text is cut with
the mark in front.  No text can be cut in two ways at one place, as every character has a width. -/

/-- Where the text behind a byte order mark is parted, so is the whole, and the mark stays in
front. -/
theorem exists_front_of_dropByteOrderMark {cs front behind : List Char}
    (h : dropByteOrderMark cs = front ++ behind) :
    ∃ cut, cs = cut ++ behind ∧ dropByteOrderMark cut = front := by
  unfold dropByteOrderMark at h
  split at h
  · exact ⟨'\uFEFF' :: front, by rw [h]; rfl, rfl⟩
  · next hmark =>
    refine ⟨front, h, ?_⟩
    rcases front with _ | ⟨c, front⟩
    · rfl
    · exact dropByteOrderMark_cons front fun hc => hmark (front ++ behind) (by rw [h, hc]; rfl)

/-- What stands behind a byte order mark ends as the whole does. -/
theorem getLast?_of_dropByteOrderMark {cs : List Char} {c : Char}
    (h : (dropByteOrderMark cs).getLast? = some c) : cs.getLast? = some c := by
  unfold dropByteOrderMark at h
  split at h
  · rw [List.getLast?_cons, h]
    rfl
  · exact h

/-- **A text is cut at a byte**, counted from behind the byte order mark that it may begin with. -/
structure CutAt (text : String) (position : Nat) (cut behind : String) : Prop where
  parts : text = cut ++ behind
  mark_in_front :
    dropByteOrderMark text.toList = dropByteOrderMark cut.toList ++ behind.toList
  size : width (dropByteOrderMark cut.toList) = position

namespace CutAt

variable {text cut behind : String} {position : Nat}

/-- A place at which a text is cut lies within it. -/
theorem le (h : CutAt text position cut behind) :
    position ≤ width (dropByteOrderMark text.toList) := by
  rw [h.mark_in_front, Text.width_append, h.size]
  exact Nat.le_add_right _ _

/-- A text can be cut behind any of its characters. -/
theorem exists_of_front {front rest : List Char}
    (h : dropByteOrderMark text.toList = front ++ rest) :
    ∃ cut behind, CutAt text (width front) cut behind := by
  obtain ⟨cut, htext, rfl⟩ := exists_front_of_dropByteOrderMark h
  refine ⟨String.ofList cut, String.ofList rest, ?_, ?_, ?_⟩
  · rw [← String.ofList_append, ← htext, String.ofList_toList]
  · rw [h, String.toList_ofList, String.toList_ofList]
  · rw [String.toList_ofList]

/-- **There is one way to cut a text at a byte.** -/
theorem eq_front (h : CutAt text position cut behind) {front rest : List Char}
    (hparts : dropByteOrderMark text.toList = front ++ rest) (hwidth : position = width front) :
    dropByteOrderMark cut.toList = front :=
  Text.eq_of_width_eq (h.mark_in_front.symm.trans hparts) (h.size.trans hwidth)

end CutAt

/-! ## Tags with an error in their attributes

A tag ends with its own `>`, so it is the same tag in every longer text.  An error in its attributes
is told behind it, when the whole of it is there. -/

namespace Builder

/-- **An error in attributes** is one of the attributes of the token that a builder stops at. -/
theorem exists_opening?_of_step {b : Builder} {t : Token} {error : AttributeError}
    (h : b.step t = .error (.invalidAttribute error)) :
    ∃ content, t.opening? = some content ∧ tagAttributes content = .error error := by
  have hmap : ∀ {content : List Char} {make : Frame → Builder},
      (Frame.ofTag content).map make = .error (.invalidAttribute error) →
        tagAttributes content = .error error := by
    intro content make h
    rw [Frame.ofTag] at h
    cases hattributes : tagAttributes content with
    | ok as => simp [hattributes, Except.map] at h
    | error e =>
      rw [hattributes] at h
      rw [MarkupError.invalidAttribute.inj (Except.error.inj h)]
  cases t with
  | startTag content => exact ⟨content, rfl, hmap h⟩
  | emptyTag content => exact ⟨content, rfl, hmap h⟩
  | endTag content =>
    rw [step, closeElement] at h
    split at h
    · cases h
    · split at h
      · cases h
      · cases h
  | _ => cases h

end Builder

/-- A token with attributes is a tag. -/
theorem Markup.Token.getLast?_source_of_opening? {t : Token} {content : List Char}
    (h : t.opening? = some content) : t.source.getLast? = some '>' := by
  cases t with
  | startTag content =>
    have hsource : (startTag content).source = '<' :: content ++ ['>'] := rfl
    rw [hsource, List.getLast?_concat]
  | emptyTag content =>
    have hsource : (emptyTag content).source = '<' :: (content ++ ['/']) ++ ['>'] := by
      simp [source]
    rw [hsource, List.getLast?_concat]
  | _ => cases h

/-- **Whatever stands behind a tag with attributes** is read behind it. -/
theorem Markup.Reading.prepend_of_opening? {cs content : List Char} {before after : List Token}
    {t : Token} (htokens : (Reading.of cs).tokens = before ++ [t] ++ after)
    (h : t.opening? = some content) (more : List Char) :
    Reading.of ((before ++ [t]).flatMap Token.source ++ more)
      = (Reading.of more).prepend (before ++ [t]) := by
  refine Reading.prepend_of_tokens htokens ?_
  rw [List.getLast?_concat]
  rintro s ⟨⟩ inner rfl
  cases h

/-- **A text ends with a tag** that has an error in its attributes, and it has no fault. -/
def EndsWithFaultyTag (text : String) (error : AttributeError) : Prop :=
  ∃ before t content,
    Reading.of (dropByteOrderMark text.toList) = ⟨before ++ [t], none⟩ ∧
      t.opening? = some content ∧ tagAttributes content = .error error ∧
      text.toList.getLast? = some '>'

/-! ## What stands before the place of an error -/

/-- **A text up to the place of an error.**  An error in attributes is one of its last tag, and is
the same whatever follows; any other error is not in it, and neither is one before, unless the error
is that a document type has no name. -/
structure Precedes (cut : String) (error : MarkupError) (position : Nat) : Prop where
  faultyTag : ∀ e, error = .invalidAttribute e → EndsWithFaultyTag cut e
  lasting : ∀ e, error = .invalidAttribute e →
    ∀ more, Element.parse (cut ++ more) = .error (.malformed error position)
  sound : (∀ e, error ≠ .invalidAttribute e) → error ≠ .lexical .namelessDoctype →
    ∀ error' position', Element.parse cut ≠ .error (.malformed error' position')

section

variable {cs : List Char} {cut : String} {before after : List Token}

/-- Tokens that a builder takes are not malformed. -/
theorem parse_ne_malformed_of_feed? {b : Builder}
    (htokens : (Reading.of cs).tokens = before ++ after)
    (hfeed : Builder.empty.feed? before = some b)
    (hcut : dropByteOrderMark cut.toList = before.flatMap Token.source) (error : MarkupError)
    (position : Nat) : Element.parse cut ≠ .error (.malformed error position) := by
  have hreading : Reading.of (dropByteOrderMark cut.toList) = ⟨before, none⟩ := by
    rw [hcut]
    exact Reading.of_flatMap_source htokens
  rw [Element.parse_of_feed? hreading rfl hfeed]
  exact Builder.finish_ne_malformed error position

variable {t : Token}

/-- **What ends with the tag at which a builder stops** is malformed by it, and stays so. -/
theorem precedes_of_faultyTag {e : AttributeError}
    (htokens : (Reading.of cs).tokens = before ++ t :: after)
    (hstops : Builder.empty.Stops before t (.invalidAttribute e))
    (hcut : dropByteOrderMark cut.toList = (before ++ [t]).flatMap Token.source) :
    Precedes cut (.invalidAttribute e) (width (before.flatMap Token.source) + t.size) := by
  obtain ⟨mid, -, hstep⟩ := id hstops
  obtain ⟨content, hopening, hattributes⟩ := Builder.exists_opening?_of_step hstep
  rw [List.append_cons] at htokens
  have hlast : cut.toList.getLast? = some '>' := by
    refine getLast?_of_dropByteOrderMark ?_
    rw [hcut, List.flatMap_append, List.flatMap_singleton, List.getLast?_append,
      Token.getLast?_source_of_opening? hopening]
    rfl
  refine ⟨?_, fun _ _ more => ?_, fun hother => absurd rfl (hother e)⟩
  · rintro e' ⟨⟩
    refine ⟨before, t, content, ?_, hopening, hattributes, hlast⟩
    rw [hcut]
    exact Reading.of_flatMap_source htokens
  · have hreading : Reading.of (dropByteOrderMark (cut ++ more).toList)
        = (Reading.of more.toList).prepend (before ++ [t]) := by
      have hne : cut.toList ≠ [] := fun hnil => by simp [hnil] at hlast
      rw [String.toList_append, dropByteOrderMark_append _ hne, hcut]
      exact Reading.prepend_of_opening? htokens hopening more.toList
    have hbehind : ((Reading.of more.toList).prepend (before ++ [t])).tokens
        = before ++ t :: (Reading.of more.toList).tokens :=
      (Reading.tokens_prepend _ _).trans (List.append_cons _ _ _).symm
    exact (Element.parse_eq_malformed_iff hreading).mpr
      (.inl ⟨before, t, (Reading.of more.toList).tokens, hbehind, hstops, rfl⟩)

/-- **The text is parted where a builder stops**: behind a tag with an error in its attributes,
before any other token. -/
theorem exists_front_of_stops {error : MarkupError}
    (htokens : (Reading.of cs).tokens = before ++ t :: after)
    (hstops : Builder.empty.Stops before t error) :
    ∃ front rest, cs = front ++ rest ∧
      error.position (width (before.flatMap Token.source)) t = width front ∧
      ∀ cut : String, dropByteOrderMark cut.toList = front →
        Precedes cut error (error.position (width (before.flatMap Token.source)) t) := by
  by_cases hattribute : ∃ e, error = .invalidAttribute e
  · obtain ⟨e, rfl⟩ := hattribute
    obtain ⟨rest, hparts, -⟩ :=
      Reading.exists_rest_of_tokens (htokens.trans (List.append_cons _ _ _))
    refine ⟨_, rest, hparts, ?_, fun cut hcut => precedes_of_faultyTag htokens hstops hcut⟩
    rw [List.flatMap_append, List.flatMap_singleton, Text.width_append]
    rfl
  · have hposition : error.position (width (before.flatMap Token.source)) t
        = width (before.flatMap Token.source) := by
      cases error with
      | invalidAttribute e => exact absurd ⟨e, rfl⟩ hattribute
      | _ => rfl
    obtain ⟨mid, hmid, -⟩ := hstops
    obtain ⟨rest, hparts, -⟩ := Reading.exists_rest_of_tokens htokens
    exact ⟨_, rest, hparts, hposition, fun cut hcut => ⟨fun e he => absurd ⟨e, he⟩ hattribute,
      fun e he => absurd ⟨e, he⟩ hattribute,
      fun _ _ => parse_ne_malformed_of_feed? htokens hmid hcut⟩⟩

/-- **The text is parted at a fault**: behind all tokens, or within a document type. -/
theorem exists_front_of_fault? {b : Builder} {f : Fault}
    (hfeed : Builder.empty.feed? (Reading.of cs).tokens = some b)
    (hfault : (Reading.of cs).fault? = some f) :
    ∃ front rest, cs = front ++ rest ∧ f.offset = width front ∧
      ∀ cut : String, dropByteOrderMark cut.toList = front →
        Precedes cut (.lexical f.error) f.offset := by
  obtain ⟨inner, behind, hparts, hoffset, hfront⟩ := Reading.exists_place_of_fault? hfault
  refine ⟨_, behind, hparts, hoffset, fun cut hcut => ⟨?_, ?_, fun _ hother => ?_⟩⟩
  · rintro e ⟨⟩
  · rintro e ⟨⟩
  have hnone : inner = [] := hfront fun hnameless => hother (congrArg _ hnameless)
  rw [hnone, List.append_nil] at hcut
  exact parse_ne_malformed_of_feed? (List.append_nil _).symm hfeed hcut

end

/-- **The place that is told is exact.**  It lies within the text, between two characters of it, and
what stands before it is as the error says. -/
theorem place_of_malformed {text : String} {error : MarkupError} {position : Nat}
    (h : Element.parse text = .error (.malformed error position)) :
    position ≤ width (dropByteOrderMark text.toList) ∧
      (∃ cut behind, CutAt text position cut behind) ∧
      ∀ cut behind, CutAt text position cut behind → Precedes cut error position := by
  obtain ⟨front, rest, hparts, hposition, hfront⟩ : ∃ front rest,
      dropByteOrderMark text.toList = front ++ rest ∧ position = width front ∧
        ∀ cut : String, dropByteOrderMark cut.toList = front → Precedes cut error position := by
    rcases (Element.parse_eq_malformed_iff rfl).mp h with
      ⟨before, t, after, htokens, hstops, rfl⟩ | ⟨⟨b, hfeed⟩, f, hfault, rfl, rfl⟩
    · exact exists_front_of_stops htokens hstops
    · exact exists_front_of_fault? hfeed hfault
  obtain ⟨cut, behind, hplace⟩ := CutAt.exists_of_front hparts
  rw [← hposition] at hplace
  exact ⟨hplace.le, ⟨cut, behind, hplace⟩,
    fun cut _ hcut => hfront cut (hcut.eq_front hparts hposition)⟩

/-- A text behind a byte order mark and a character of two bytes, with an error in the attributes of
its second tag. -/
def misplacedText : String :=
  "\uFEFF<é><b c='1' c='2'/>"

theorem place_of_malformed_misplacedText :
    Element.parse misplacedText
        = .error (.malformed (.invalidAttribute (.duplicated 8 2)) 20) ∧
      20 ≤ width (dropByteOrderMark misplacedText.toList) ∧
      (∃ cut behind, CutAt misplacedText 20 cut behind) ∧
      ∀ cut behind, CutAt misplacedText 20 cut behind →
        Precedes cut (.invalidAttribute (.duplicated 8 2)) 20 := by
  have h : Element.parse misplacedText
      = .error (.malformed (.invalidAttribute (.duplicated 8 2)) 20) := by decide +kernel
  exact ⟨h, place_of_malformed h⟩

end DocMarkdown
