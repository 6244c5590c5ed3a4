import DocMarkdown.Proofs.Tree.Growth
import DocMarkdown.Proofs.Tree.Normal

/-!
# Proofs/Tree/Written — a tree is read back from what was written

A tree can be **written** in many ways: any element may carry a prefix and declare namespaces among
its attributes, one without children may be an empty tag, and notes may stand between nodes.
`parse_of_written` says that every written form of a normal tree is read as that tree, so nothing is
lost between the two, and no choice of the writer shows.
-/

namespace DocMarkdown

open Markup (IsName IsPrefix declaresNamespace escapeText writeTag Reading Token)

/-! ## Written forms

The relations follow the tree, and leave to the writer what a tree does not keep: prefixes,
declarations of namespaces, notes, and how an element without children is closed. -/

/-- **The tag of an element as it may be written**: under a prefix, with declarations of namespaces
anywhere among its attributes; `tag` is the name with its prefix, `content` the whole tag. -/
inductive TagWritten (e : Element) : (tag content : List Char) → Prop
  | intro {front : List Char} {written : List (String × String)} : IsPrefix front →
      written.filter (!declaresNamespace ·.1) = e.attributes →
      (∀ w ∈ written, declaresNamespace w.1 = true → IsName w.1.toList) →
      ((written.map Prod.fst).filter declaresNamespace).Nodup →
      TagWritten e (front ++ e.name.toList) (writeTag (front ++ e.name.toList) written)

/-- **A note between nodes**, of which the tree keeps nothing: a comment, or an instruction. -/
inductive NoteWritten : List Char → Prop
  | comment {content : List Char} : ¬ ['-', '-', '>'] <:+: content →
      NoteWritten (Token.comment content).source
  | instruction {content : List Char} : content.head? ≠ some '>' → ¬ ['?', '>'] <:+: content →
      NoteWritten (Token.instruction content).source

mutual

/-- **The written forms of an element**: what it holds between two tags, or an empty tag if it holds
nothing. -/
inductive ElementWritten : Element → List Char → Prop
  | tags {e : Element} {tag content inner : List Char} : TagWritten e tag content →
      NodesWritten e.children inner →
      ElementWritten e ('<' :: (content ++ '>' :: (inner ++ '<' :: '/' :: (tag ++ ['>']))))
  | emptyTag {e : Element} {tag content : List Char} : TagWritten e tag content →
      e.children = [] → ElementWritten e ('<' :: (content ++ ['/', '>']))

/-- The written forms of nodes, one behind the other. -/
inductive NodesWritten : List Node → List Char → Prop
  | nil : NodesWritten [] []
  | element {e : Element} {ns : List Node} {cs rest : List Char} : ElementWritten e cs →
      NodesWritten ns rest → NodesWritten (.element e :: ns) (cs ++ rest)
  | text {t : String} {ns : List Node} {rest : List Char} : NodesWritten ns rest →
      NodesWritten (.text t :: ns) (escapeText t.toList ++ rest)
  | cdata {t : String} {ns : List Node} {rest : List Char} : NodesWritten ns rest →
      NodesWritten (.cdata t :: ns) ((Token.cdata t.toList).source ++ rest)
  | note {ns : List Node} {cs rest : List Char} : NoteWritten cs → NodesWritten ns rest →
      NodesWritten ns (cs ++ rest)

end

/-! ## Tags -/

namespace TagWritten

variable {e : Element} {tag content : List Char}

/-- What is known of the tag of a normal element: its attributes with the declarations among them
have names, and no key comes twice. -/
theorem exists_written (h : TagWritten e tag content) (he : e.Normal) :
    ∃ written, content = writeTag tag written ∧ (∀ w ∈ written, IsName w.1.toList) ∧
      (written.map Prod.fst).Nodup ∧ written.filter (!declaresNamespace ·.1) = e.attributes := by
  obtain ⟨hfront, hplain, hnames, hnodup⟩ := h
  next written =>
  refine ⟨written, rfl, fun w hw => ?_, ?_, hplain⟩
  · by_cases hd : declaresNamespace w.1 = true
    · exact hnames w hw hd
    · refine he.keys e .self w ?_
      rw [← hplain]
      exact List.mem_filter.mpr ⟨hw, by simp [hd]⟩
  · -- declarations and attributes have different keys, and neither has one twice
    have hperm := List.filter_append_perm declaresNamespace (written.map Prod.fst)
    refine hperm.nodup_iff.mp (List.nodup_append.mpr ⟨hnodup, ?_, ?_⟩)
    · rw [List.filter_map]
      have hattributes : written.filter ((fun k => !declaresNamespace k) ∘ Prod.fst)
          = e.attributes := hplain
      rw [hattributes]
      exact (he.tidy e .self).nodup
    · rintro k hk l hl rfl
      have hdeclares := (List.mem_filter.mp hk).2
      simp [hdeclares] at hl

theorem isName (h : TagWritten e tag content) (he : e.Normal) : IsName tag := by
  obtain ⟨hfront, -, -, -⟩ := h
  exact Markup.isName_prefixed hfront (he.names e .self).1

theorem localPart (h : TagWritten e tag content) (he : e.Normal) :
    Markup.localPart tag = e.name.toList := by
  obtain ⟨hfront, -, -, -⟩ := h
  exact Markup.localPart_prefixed hfront (he.names e .self).2

/-- **A written tag opens its element.** -/
theorem ofTag (h : TagWritten e tag content) (he : e.Normal) :
    Frame.ofTag content = .ok ⟨tag, e.attributes, []⟩ := by
  obtain ⟨written, rfl, hnames, hnodup, hplain⟩ := h.exists_written he
  have hname := h.isName he
  obtain ⟨as, has, rfl⟩ := Markup.tagAttributes_writeTag hname hnames hnodup
  have hkeep : ∀ a : Markup.Attribute, (!a.isNamespace) = (!declaresNamespace a.pair.1) := by
    intro a
    rw [Markup.Attribute.declaresNamespace_pair]
  have hattributes : (as.filter (!·.isNamespace)).map Markup.Attribute.pair = e.attributes := by
    rw [← hplain, List.filter_map]
    exact congrArg (fun p => (as.filter p).map Markup.Attribute.pair) (funext hkeep)
  rw [Frame.ofTag, has, Markup.tagName_writeTag _ hname, ← hattributes]
  rfl

/-- A written tag at the front of a text. -/
theorem of_startTag (h : TagWritten e tag content) (he : e.Normal) (rest : List Char) :
    Reading.of ('<' :: (content ++ '>' :: rest))
      = (Reading.of rest).cons (.startTag content) := by
  obtain ⟨written, rfl, hnames, -, -⟩ := h.exists_written he
  exact Reading.of_startTag rest (h.isName he) hnames

/-- The same, written as an empty tag. -/
theorem of_emptyTag (h : TagWritten e tag content) (he : e.Normal) (rest : List Char) :
    Reading.of ('<' :: (content ++ ['/', '>'] ++ rest))
      = (Reading.of rest).cons (.emptyTag content) := by
  obtain ⟨written, rfl, hnames, -, -⟩ := h.exists_written he
  exact Reading.of_emptyTag rest (h.isName he) hnames

/-- The frame of a written tag, with all the element's children, closes to the element. -/
theorem close_eq (h : TagWritten e tag content) (he : e.Normal) :
    Frame.close ⟨tag, e.attributes, e.children.reverse⟩ = e := by
  rw [Frame.close, Frame.name, h.localPart he, String.ofList_toList, List.reverse_reverse]
  obtain ⟨name, attributes, children⟩ := e
  rfl

end TagWritten

/-! ## There is a written form -/

/-- A tag may be written without a prefix and without declarations. -/
theorem Element.Normal.tagWritten {e : Element} (he : e.Normal) :
    TagWritten e ([] ++ e.name.toList) (writeTag ([] ++ e.name.toList) e.attributes) := by
  have hplain := (he.tidy e .self).plain
  have hnone : (e.attributes.map Prod.fst).filter declaresNamespace = [] := by
    simpa [List.filter_eq_nil_iff] using fun key value hmem => hplain (key, value) hmem
  refine .intro (Or.inl rfl) ?_ (fun w hw hd => ?_) ?_
  · refine List.filter_eq_self.mpr ?_
    intro a ha
    rw [hplain a ha]
    rfl
  · exact he.keys e .self w hw
  · rw [hnone]
    exact List.nodup_nil

mutual

theorem Element.Normal.exists_written : ∀ {e : Element}, e.Normal → ∃ cs, ElementWritten e cs
  | ⟨_, _, children⟩, he =>
    have ⟨_, hinner⟩ := exists_nodesWritten children he.nodes.elements
    ⟨_, .tags he.tagWritten hinner⟩

theorem exists_nodesWritten : ∀ ns : List Node, (∀ e, .element e ∈ ns → e.Normal) →
    ∃ cs, NodesWritten ns cs
  | [], _ => ⟨[], .nil⟩
  | .element e :: ns, h =>
    have ⟨_, he⟩ := (h e List.mem_cons_self).exists_written
    have ⟨_, hns⟩ := exists_nodesWritten ns fun c hc => h c (List.mem_cons_of_mem _ hc)
    ⟨_, .element he hns⟩
  | .text _ :: ns, h =>
    have ⟨_, hns⟩ := exists_nodesWritten ns fun c hc => h c (List.mem_cons_of_mem _ hc)
    ⟨_, .text hns⟩
  | .cdata _ :: ns, h =>
    have ⟨_, hns⟩ := exists_nodesWritten ns fun c hc => h c (List.mem_cons_of_mem _ hc)
    ⟨_, .cdata hns⟩

end

/-! ## Growth of what is written

Text becomes a child of the open element only when a tag or a CDATA section settles it, so `Grows`
speaks of the builder once it is settled. -/

namespace Builder

/-- **A text grows to nodes**: whatever stands behind it, the reading goes on there with an element
that has these nodes besides those it had. -/
def Grows (b base : Builder) (f : Frame) (cs : List Char) (ns : List Node) : Prop :=
  ∃ behind : Builder, (∀ rest, b.grow? (cs ++ rest) = behind.grow? rest) ∧
    behind.settle = base.openElement (f.extend ns)

/-- What grows to a node, and behind it to others, grows to all of them. -/
theorem Grows.cons {b next base : Builder} {f : Frame} {cs more : List Char} {n : Node}
    {ns : List Node} (hnext : ∀ rest, b.grow? (cs ++ rest) = next.grow? rest)
    (h : next.Grows base (f.push n) more ns) : b.Grows base f (cs ++ more) (n :: ns) := by
  obtain ⟨behind, hgrow, hsettle⟩ := h
  refine ⟨behind, ?_, ?_⟩
  · intro rest
    rw [List.append_assoc, hnext, hgrow]
  · rw [hsettle, Frame.push_eq_extend, Frame.extend_extend, List.singleton_append]

end Builder

/-- A CDATA section grows to its node. -/
theorem grow?_cdata (b : Builder) {t : String} (rest : List Char)
    (h : '\r' ∉ t.toList ∧ ¬ [']', ']', '>'] <:+: t.toList) :
    b.grow? ((Token.cdata t.toList).source ++ rest) = (b.settle.addNode (.cdata t)).grow? rest := by
  have hstep : b.step (.cdata t.toList) = .ok (b.settle.addNode (.cdata t)) := by
    rw [Builder.step, Text.unifyLineEnds_of_not_mem h.1, String.ofList_toList]
  exact Builder.grow?_of_step (Reading.of_cdata rest h.2) hstep

/-- A note leaves everything as it is. -/
theorem NoteWritten.grow? {cs : List Char} (h : NoteWritten cs) (b : Builder) (rest : List Char) :
    b.grow? (cs ++ rest) = b.grow? rest := by
  obtain ⟨hmark⟩ | ⟨hfirst, hmark⟩ := h
  · exact Builder.grow?_of_step (Reading.of_comment rest hmark) rfl
  · exact Builder.grow?_of_step (Reading.of_instruction rest hfirst hmark) rfl

/-- A start tag grows to an open element. -/
theorem TagWritten.grow?_startTag {e : Element} {tag content : List Char}
    (h : TagWritten e tag content) (he : e.Normal) (b : Builder) (rest : List Char) :
    b.grow? ('<' :: (content ++ '>' :: rest))
      = (b.settle.openElement ⟨tag, e.attributes, []⟩).grow? rest := by
  have hstep : b.step (.startTag content) = .ok (b.settle.openElement ⟨tag, e.attributes, []⟩) := by
    rw [Builder.step, h.ofTag he]
    rfl
  exact Builder.grow?_of_step (h.of_startTag he rest) hstep

/-- An end tag behind its children closes an element. -/
theorem TagWritten.grow?_endTag {e : Element} {tag content : List Char}
    (h : TagWritten e tag content) (he : e.Normal) {b opened : Builder} (rest : List Char)
    (hb : opened.settle = b.openElement ⟨tag, e.attributes, e.children.reverse⟩) :
    opened.grow? ('<' :: '/' :: (tag ++ '>' :: rest)) = (b.addElement e).grow? rest := by
  have hname := h.isName he
  have hstep : opened.step (.endTag tag) = .ok (b.addElement e) := by
    rw [Builder.step, hb, Markup.endTagName_of_isName hname, Builder.openElement,
      Builder.closeElement]
    simp only [if_true, h.close_eq he]
  exact Builder.grow?_of_step
    (Reading.of_endTag rest (Token.extent_tagRule_isName hname)) hstep

mutual

/-- **A written element grows to the element**, whatever stands behind it. -/
theorem ElementWritten.grow? : ∀ {e : Element} {cs : List Char}, ElementWritten e cs →
    e.Normal → ∀ (b : Builder) (rest : List Char),
      b.grow? (cs ++ rest) = (b.settle.addElement e).grow? rest
  | e, _, .emptyTag htag hnone, he, b, rest => by
    have hclose := htag.close_eq he
    rw [hnone, List.reverse_nil] at hclose
    refine Builder.grow?_of_step (htag.of_emptyTag he rest) ?_
    rw [Builder.step, htag.ofTag he, ← hclose]
    rfl
  | e, _, .tags htag hnodes, he, b, rest => by
    rename_i tag content inner
    obtain ⟨behind, hgrow, hsettle⟩ := hnodes.grows he.nodes (b := b.settle.openElement
      ⟨tag, e.attributes, []⟩) (Builder.settle_of_pending_nil (Builder.pending_settle b))
      (Or.inl (Builder.pending_settle b))
    have hchildren : Frame.extend ⟨tag, e.attributes, []⟩ e.children
        = ⟨tag, e.attributes, e.children.reverse⟩ := by rw [Frame.extend, List.append_nil]
    rw [hchildren] at hsettle
    calc b.grow? ('<' :: (content ++ '>' :: (inner ++ '<' :: '/' :: (tag ++ ['>']))) ++ rest)
      _ = b.grow? ('<' :: (content ++ '>' :: (inner ++ '<' :: '/' :: (tag ++ '>' :: rest)))) := by
          simp
      _ = behind.grow? ('<' :: '/' :: (tag ++ '>' :: rest)) := by
          rw [htag.grow?_startTag he, hgrow]
      _ = (b.settle.addElement e).grow? rest := htag.grow?_endTag he rest hsettle

/-- **Written nodes grow to children** of the element that is open.  Text that came before them has
to be settled by then, or the first of them settles it. -/
theorem NodesWritten.grows : ∀ {ns : List Node} {cs : List Char}, NodesWritten ns cs →
    NormalNodes ns → ∀ {b base : Builder} {f : Frame}, b.settle = base.openElement f →
      (b.pending = [] ∨ ∀ n ∈ ns.head?, n.isText = false) → b.Grows base f cs ns
  | [], _, .nil, _, b, _, _, hb, _ => ⟨b, fun _ => rfl, hb⟩
  | _ :: _, _, .element (e := e) he hns, hnormal, b, base, f, hb, _ => by
    have hnext : (b.settle.addElement e).settle = base.openElement (f.push (.element e)) := by
      rw [Builder.settle_of_pending_nil (by simp), hb]
      rfl
    refine .cons ?_ (hns.grows hnormal.tail hnext (Or.inl (by simp)))
    exact he.grow? (hnormal.elements e List.mem_cons_self) b
  | _ :: _, _, .text (t := t) hns, hnormal, b, base, f, hb, hfirst => by
    -- a text stands behind no other, so nothing is pending where it begins
    have hpending : b.pending = [] := by
      refine hfirst.resolve_right ?_
      intro h
      simpa [Node.isText] using h (.text t) rfl
    obtain rfl : b = base.openElement f := (Builder.settle_of_pending_nil hpending).symm.trans hb
    have hbase : base.pending = [] := hpending
    have hnext := Builder.settle_addText f hbase (hnormal.solid t List.mem_cons_self)
    rw [String.ofList_toList] at hnext
    refine .cons ?_ (hns.grows hnormal.tail hnext (Or.inr hnormal.head_isText))
    exact Builder.grow?_escapeText _ t.toList
  | _ :: _, _, .cdata (t := t) hns, hnormal, b, base, f, hb, _ => by
    have hnext : (b.settle.addNode (.cdata t)).settle = base.openElement (f.push (.cdata t)) := by
      rw [Builder.settle_of_pending_nil (by simp), hb]
      rfl
    refine .cons ?_ (hns.grows hnormal.tail hnext (Or.inl (by simp)))
    intro rest
    exact grow?_cdata b rest (hnormal.cdata t List.mem_cons_self)
  | _, _, .note hnote hns, hnormal, b, _, _, hb, hfirst => by
    obtain ⟨behind, hgrow, hsettle⟩ := hns.grows hnormal hb hfirst
    refine ⟨behind, ?_, hsettle⟩
    intro rest
    rw [List.append_assoc, hnote.grow?, hgrow]

end

/-! ## The tree of what is written -/

/-- What is written of an element begins with its tag. -/
theorem ElementWritten.dropByteOrderMark {e : Element} {cs : List Char}
    (hw : ElementWritten e cs) : dropByteOrderMark cs = cs := by
  cases hw <;> rfl

/-- **A normal tree has a written form, and every written form of it is read as that tree.** -/
theorem parse_of_written {e : Element} (he : e.Normal) :
    (∃ cs, ElementWritten e cs) ∧
      ∀ cs, ElementWritten e cs → Element.parse (String.ofList cs) = .ok e := by
  refine ⟨he.exists_written, fun cs hw => ?_⟩
  refine Element.parse_eq_ok_iff.mpr ⟨Builder.empty.addElement e, ?_, rfl, rfl⟩
  have hgrow := hw.grow? he Builder.empty []
  rw [List.append_nil, Builder.grow?_nil] at hgrow
  rw [String.toList_ofList, hw.dropByteOrderMark, hgrow]
  rfl

/-- A tree in which everything that needs care stands side by side. -/
def carefulTree : Element :=
  ⟨"a", [("k", "\"&<")],
    [.text "x<&\r\ny", .cdata "]]", .text " z", .element ⟨"b", [], []⟩]⟩

/-- A written form of it: prefixes, declarations, a comment within, an empty tag. -/
def carefulText : String :=
  "<p:a xmlns:p=\"u\" k=\"&quot;&amp;<\">x&lt;&amp;&#13;\ny<![CDATA[]]]]> z<!-- -->" ++
    "<b xmlns=\"&amp;\"/></p:a>"

theorem parse_of_written_carefulTree : carefulTree.Normal ∧
    ElementWritten carefulTree carefulText.toList ∧
    Element.parse (String.ofList carefulText.toList) = .ok carefulTree := by
  have hb : Element.Normal ⟨"b", [], []⟩ :=
    .of_children ⟨by simp, by simp, by simp, by simp, by simp⟩ (by decide) (by simp) (by simp)
  have ha : carefulTree.Normal := by
    refine .of_children ⟨by decide, by decide, ?_, ?_, ?_⟩ (by decide) (by decide) ?_
    · simp [carefulTree]; decide
    · simp [carefulTree, Node.isText]
    · simp [carefulTree]; decide
    · simpa [carefulTree] using hb
  have hprefix : IsPrefix "p:".toList := Or.inr ⟨['p'], by decide, by decide, rfl⟩
  have htagA : TagWritten carefulTree "p:a".toList
      (writeTag "p:a".toList [("xmlns:p", "u"), ("k", "\"&<")]) :=
    .intro hprefix (by decide) (by decide) (by decide)
  have hnone : IsPrefix [] := Or.inl rfl
  have htagB : TagWritten ⟨"b", [], []⟩ "b".toList (writeTag "b".toList [("xmlns", "&")]) :=
    .intro hnone (by decide) (by decide) (by decide)
  have hnote : NoteWritten "<!-- -->".toList :=
    .comment (show ¬ ['-', '-', '>'] <:+: [' '] by decide)
  have hinner : NodesWritten carefulTree.children _ :=
    .text (.cdata (.text (.note hnote (.element (.emptyTag htagB rfl) .nil))))
  have hwritten : ElementWritten carefulTree carefulText.toList := .tags htagA hinner
  exact ⟨ha, hwritten, (parse_of_written ha).2 _ hwritten⟩

end DocMarkdown
