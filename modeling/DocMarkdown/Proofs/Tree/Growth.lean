import DocMarkdown.Proofs.Markup.Extension
import DocMarkdown.Tree.Load

/-!
# Proofs/Tree/Growth — what a piece of text does to a tree in the making

A builder that is fed a text takes its tokens one after the other; `Builder.grow?` is the builder
behind them, when none of them is an error and no fault stops the reading.  It goes through a text
from the front: one token (`grow?_of_cons`), one character of running text (`grow?_literal`), or a
whole run of escaped text (`grow?_escapeText`), and a text has a tree when growth from nothing ends
with no element open (`parse_eq_ok_iff`).  All that a single step can do, within an element and
outside, is said once, in `step_of_frames` and `step_of_nil`.
-/

namespace DocMarkdown

open Markup (MarkupError Reading Token)

/-! ## What a tag opens -/

namespace Markup

/-- The attributes that an element has of its tag: declarations of namespaces are none. -/
def plainAttributes (content : List Char) : List (String × String) :=
  match tagAttributes content with
  | .error _ => []
  | .ok as => (as.filter (!·.isNamespace)).map Attribute.pair

end Markup

namespace Frame

/-- A tag opens something when its attributes can be read. -/
theorem exists_ofTag_iff {content : List Char} :
    (∃ f, ofTag content = .ok f) ↔ ∃ as, Markup.tagAttributes content = .ok as := by
  rw [ofTag]
  cases Markup.tagAttributes content <;> simp

/-- **What a tag opens** has its name and its plain attributes, and no children yet. -/
theorem eq_of_ofTag {content : List Char} {f : Frame} (h : ofTag content = .ok f) :
    f = ⟨Markup.tagName content, Markup.plainAttributes content, []⟩ := by
  obtain ⟨as, has⟩ := exists_ofTag_iff.mp ⟨f, h⟩
  rw [ofTag, has] at h
  rw [Markup.plainAttributes, has]
  exact (Except.ok.inj h).symm

end Frame

/-! ## Nodes at the open end -/

/-- **The nodes that running text becomes**: one, or none where it is all blank. -/
def proseNodes (cs : List Char) : List Node :=
  if cs.all Text.isBlank then [] else [.text (String.ofList cs)]

namespace Frame

/-- More children, in document order. -/
def extend (f : Frame) (ns : List Node) : Frame :=
  { f with children := ns.reverse ++ f.children }

@[simp] theorem extend_nil (f : Frame) : f.extend [] = f := rfl

theorem push_eq_extend (f : Frame) (n : Node) : f.push n = f.extend [n] := rfl

@[simp] theorem extend_extend (f : Frame) (ns ms : List Node) :
    (f.extend ns).extend ms = f.extend (ns ++ ms) := by
  simp [extend]

end Frame

namespace Builder

/-! ## Growth

`run` carries the place of the next token along, and `feed?` does not.  Without places, what a piece
of text does to a builder does not depend on where the piece stands. -/

/-- The builder behind tokens, if each of them has a place. -/
def feed? (b : Builder) : List Token → Option Builder
  | [] => some b
  | t :: ts => (b.step t).toOption.bind (·.feed? ts)

/-- **The builder behind a text**, if it has no fault and each of its tokens has a place. -/
def grow? (b : Builder) (cs : List Char) : Option Builder :=
  match (Reading.of cs).fault? with
  | some _ => none
  | none => b.feed? (Reading.of cs).tokens

/-- A run that succeeds is a growth: places matter to errors only. -/
theorem run_eq_ok_iff {b b' : Builder} (start : Nat) (ts : List Token) :
    b.run start ts = .ok b' ↔ b.feed? ts = some b' := by
  induction ts generalizing b start with
  | nil => simp [run, feed?]
  | cons t ts ih =>
    rw [run, feed?]
    rcases b.step t with e | next
    · simp [Except.toOption]
    · exact ih (start + t.size)

@[simp] theorem grow?_nil (b : Builder) : b.grow? [] = some b := by
  simp [grow?, feed?]

/-- **The first token of a text grows first.** -/
theorem grow?_of_cons {b : Builder} {cs rest : List Char} {t : Token}
    (h : Reading.of cs = (Reading.of rest).cons t) :
    b.grow? cs = (b.step t).toOption.bind (·.grow? rest) := by
  rw [grow?, h]
  rcases hf : (Reading.of rest).fault? with _ | f
  · simp only [Reading.cons, hf, Option.map_none, grow?]
    rfl
  · simp only [Reading.cons, hf, Option.map_some, grow?]
    rcases (b.step t).toOption with _ | next <;> rfl

theorem grow?_of_step {b next : Builder} {cs rest : List Char} {t : Token}
    (h : Reading.of cs = (Reading.of rest).cons t) (hstep : b.step t = .ok next) :
    b.grow? cs = next.grow? rest := by
  rw [grow?_of_cons h, hstep]
  rfl

theorem feed?_append (b : Builder) (ts us : List Token) :
    b.feed? (ts ++ us) = (b.feed? ts).bind (·.feed? us) := by
  induction ts generalizing b with
  | nil => rfl
  | cons t ts ih =>
    rw [List.cons_append, feed?, feed?, Option.bind_assoc]
    exact Option.bind_congr fun next _ => ih next

/-- **The tokens that a text begins with grow first.** -/
theorem grow?_of_prepend {b : Builder} {cs rest : List Char} {ts : List Token}
    (h : Reading.of cs = (Reading.of rest).prepend ts) :
    b.grow? cs = (b.feed? ts).bind (·.grow? rest) := by
  rw [grow?, h, Reading.tokens_prepend, feed?_append]
  rcases hfault : (Reading.of rest).fault? with _ | f
  · rw [Reading.fault?_prepend_eq_none_iff.mpr hfault]
    simp only [grow?, hfault]
  · obtain ⟨f', hf'⟩ := Option.ne_none_iff_exists'.mp
      (mt Reading.fault?_prepend_eq_none_iff.mp (by rw [hfault]; exact Option.some_ne_none f))
    rw [hf']
    simp only [grow?, hfault, Option.bind_fun_none]

/-! ## Running text

A run of literal characters is one token, and with one character less it is another.  The builder
joins both to the same pending text.  A CR is left out here, since what becomes of it depends on the
next character. -/

theorem addText_addText (b : Builder) (cs ds : List Char) :
    (b.addText cs).addText ds = b.addText (cs ++ ds) := by
  cases hb : b.frames <;> simp [addText, hb]

@[simp] theorem addText_nil (b : Builder) : b.addText [] = b := by
  rw [addText]
  split <;> simp

/-- **Running text grows character by character**, though it is read in longer pieces. -/
theorem grow?_literal {c : Char} (b : Builder) (cs : List Char)
    (hc : Token.isLiteral c = true) (hcr : c ≠ '\r') :
    b.grow? (c :: cs) = (b.addText [c]).grow? cs := by
  rw [grow?_of_step (Reading.of_literal cs hc) rfl, Text.unifyLineEnds_cons _ hcr]
  rcases cs with _ | ⟨d, ds⟩
  · rfl
  · by_cases hd : Token.isLiteral d = true
    · rw [List.takeWhile_cons_of_pos hd, List.dropWhile_cons_of_pos hd,
        grow?_of_step (Reading.of_literal ds hd) rfl, addText_addText, List.singleton_append]
    · rw [List.takeWhile_cons_of_neg hd, List.dropWhile_cons_of_neg hd]
      rfl

/-- A reference grows to the character it stands for. -/
theorem grow?_reference (b : Builder) (name rest : List Char)
    (h : ∀ c ∈ name, c ≠ ';' ∧ c ≠ '&' ∧ c ≠ '<') :
    b.grow? ('&' :: (name ++ ';' :: rest))
      = (b.addText (Markup.referenceText name)).grow? rest :=
  grow?_of_step (Reading.of_reference rest h) rfl

theorem grow?_escapeTextChar (b : Builder) (c : Char) (rest : List Char) :
    b.grow? (Markup.escapeTextChar c ++ rest) = (b.addText [c]).grow? rest := by
  rw [Markup.escapeTextChar]
  split
  · next h => subst h; exact grow?_reference b ['a', 'm', 'p'] rest (by simp)
  · split
    · next h => subst h; exact grow?_reference b ['l', 't'] rest (by simp)
    · split
      · next h => subst h; exact grow?_reference b ['#', '1', '3'] rest (by simp)
      · next hamp hlt hcr =>
        exact grow?_literal b rest (by simp [Token.isLiteral, hlt, hamp]) hcr

/-- **Escaped text grows to the text.** -/
theorem grow?_escapeText (b : Builder) (cs rest : List Char) :
    b.grow? (Markup.escapeText cs ++ rest) = (b.addText cs).grow? rest := by
  induction cs generalizing b with
  | nil => rw [Markup.escapeText, List.flatMap_nil, List.nil_append, addText_nil]
  | cons c cs ih =>
    rw [Markup.escapeText, List.flatMap_cons, List.append_assoc, ← Markup.escapeText,
      grow?_escapeTextChar, ih, addText_addText, List.singleton_append]

/-! ## Settled builders -/

/-- **Settling gives the open element the nodes that its pending text becomes.** -/
theorem settle_of_frames (f : Frame) (fs : List Frame) (pending : List Char)
    (root? : Option Element) :
    settle ⟨f :: fs, pending, root?⟩ = ⟨f.extend (proseNodes pending) :: fs, [], root?⟩ := by
  rw [settle, proseNodes]
  split
  · rw [Frame.extend_nil]
  · rfl

theorem settle_of_pending_nil {b : Builder} (h : b.pending = []) : b.settle = b := by
  obtain ⟨frames, pending, root?⟩ := b
  obtain rfl : pending = [] := h
  rfl

/-- **Text that is not all blank settles to a child** of the element that is open. -/
theorem settle_addText {b : Builder} (f : Frame) {cs : List Char} (hb : b.pending = [])
    (hcs : cs.all Text.isBlank = false) :
    ((b.openElement f).addText cs).settle
      = b.openElement (f.push (.text (String.ofList cs))) := by
  simp [openElement, addText, settle_of_frames, proseNodes, hb, hcs, Frame.push_eq_extend]

/-! ## What a step can do

There are two equations, one for a builder with an open element and one for a builder without, each
by the kind of the token. Pending text stands in them as the nodes that it settles to. -/

/-- **A step within an element.**  Only an end tag leaves it. -/
theorem step_of_frames (f : Frame) (fs : List Frame) (pending : List Char) (root? : Option Element)
    (t : Token) :
    step ⟨f :: fs, pending, root?⟩ t = match t with
      | .text content => .ok ⟨f :: fs, pending ++ Text.unifyLineEnds content, root?⟩
      | .reference name => .ok ⟨f :: fs, pending ++ Markup.referenceText name, root?⟩
      | .cdata content => .ok ⟨f.extend (proseNodes pending ++
          [.cdata (String.ofList (Text.unifyLineEnds content))]) :: fs, [], root?⟩
      | .startTag content => (Frame.ofTag content).map fun g =>
          ⟨g :: f.extend (proseNodes pending) :: fs, [], root?⟩
      | .emptyTag content => (Frame.ofTag content).map fun g =>
          ⟨f.extend (proseNodes pending ++ [.element g.close]) :: fs, [], root?⟩
      | .endTag content =>
        if f.tag = Markup.endTagName content then
          .ok (addElement ⟨fs, [], root?⟩ (f.extend (proseNodes pending)).close)
        else .error (.mismatchedEnd (String.ofList f.tag)
          (String.ofList (Markup.endTagName content)))
      | _ => .ok ⟨f :: fs, pending, root?⟩ := by
  cases t with
  | cdata content =>
    simp only [step, settle_of_frames, addNode, Frame.push_eq_extend, Frame.extend_extend]
  | startTag content =>
    rw [step, settle_of_frames]
    rfl
  | emptyTag content =>
    simp only [step, settle_of_frames, addElement, Frame.push_eq_extend, Frame.extend_extend]
  | endTag content =>
    rw [step, settle_of_frames]
    rfl
  | _ => rfl

/-- **A step outside all elements.**  Only tags count there. -/
theorem step_of_nil (pending : List Char) (root? : Option Element) (t : Token) :
    step ⟨[], pending, root?⟩ t = match t with
      | .cdata _ => .ok ⟨[], [], root?⟩
      | .startTag content => (Frame.ofTag content).map fun g => ⟨[g], [], root?⟩
      | .emptyTag content => (Frame.ofTag content).map fun g => ⟨[], [], root?.or (some g.close)⟩
      | .endTag content => .error (.unmatchedEnd (String.ofList (Markup.endTagName content)))
      | _ => .ok ⟨[], pending, root?⟩ := by
  have hsettle : settle ⟨[], pending, root?⟩ = ⟨[], [], root?⟩ := by
    rw [settle]
    split <;> rfl
  cases t with
  | cdata content => rw [step, hsettle]; rfl
  | startTag content => rw [step, hsettle]; rfl
  | emptyTag content => rw [step, hsettle]; rfl
  | endTag content => rw [step, hsettle]; rfl
  | _ => rfl

/-- A builder is finished when nothing is open and there is a root. -/
theorem finish_eq_ok_iff {b : Builder} {e : Element} :
    b.finish = .ok e ↔ b.frames = [] ∧ b.root? = some e := by
  rw [finish]
  rcases b.frames with _ | ⟨f, fs⟩
  · rcases b.root? with _ | root <;> simp
  · simp

end Builder

/-! ## The tree of a text -/

theorem dropByteOrderMark_cons {c : Char} (cs : List Char) (h : c ≠ '\uFEFF') :
    dropByteOrderMark (c :: cs) = c :: cs := by
  rw [dropByteOrderMark]
  rintro rest heq
  exact h (List.cons.inj heq).1

/-- The byte order mark stands at the front, if anything does. -/
theorem dropByteOrderMark_append {cs : List Char} (more : List Char) (h : cs ≠ []) :
    dropByteOrderMark (cs ++ more) = dropByteOrderMark cs ++ more := by
  obtain ⟨c, cs, rfl⟩ := List.exists_cons_of_ne_nil h
  by_cases hc : c = '\uFEFF'
  · subst hc
    rfl
  · rw [List.cons_append, dropByteOrderMark_cons _ hc, dropByteOrderMark_cons _ hc,
      List.cons_append]

theorem dropByteOrderMark_subset (cs : List Char) : dropByteOrderMark cs ⊆ cs := by
  unfold dropByteOrderMark
  split
  · exact List.subset_cons_self _ _
  · exact List.Subset.refl _

theorem Element.parse_empty : Element.parse "" = .error .noRoot := by
  have hof : Reading.of (dropByteOrderMark "".toList) = ⟨[], none⟩ := Reading.of_nil
  rw [parse, hof]
  rfl

/-- **A text has a tree when it grows to one from nothing**, with no element left open. -/
theorem Element.parse_eq_ok_iff {text : String} {e : Element} :
    Element.parse text = .ok e ↔
      ∃ b, Builder.empty.grow? (dropByteOrderMark text.toList) = some b ∧ b.frames = [] ∧
        b.root? = some e := by
  rw [Element.parse, Element.ofReading, Builder.grow?]
  rcases hrun : Builder.empty.run 0 (Reading.of (dropByteOrderMark text.toList)).tokens
    with err | b
  · have hnone : ∀ b, Builder.empty.feed? (Reading.of (dropByteOrderMark text.toList)).tokens
        ≠ some b := by
      intro b hb
      rw [(Builder.run_eq_ok_iff 0 _).mpr hb] at hrun
      contradiction
    rcases (Reading.of (dropByteOrderMark text.toList)).fault? with _ | f <;>
      simp [bind, Except.bind, hnone]
  · rw [(Builder.run_eq_ok_iff 0 _).mp hrun]
    rcases (Reading.of (dropByteOrderMark text.toList)).fault? with _ | f
    · simp only [bind, Except.bind, Option.some.injEq, exists_eq_left', Builder.finish_eq_ok_iff]
    · simp [bind, Except.bind, throw, throwThe, MonadExceptOf.throw]

end DocMarkdown
