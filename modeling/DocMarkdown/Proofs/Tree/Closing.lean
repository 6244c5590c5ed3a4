import DocMarkdown.Proofs.Markup.Seam
import DocMarkdown.Proofs.Tree.Ending
import DocMarkdown.Proofs.Tree.Insertion
import DocMarkdown.Proofs.Tree.Parse

/-!
# Proofs/Tree/Closing — an unclosed text lacks nothing but end tags

A text that ends within an element has been read without a fault, and its tags nest; all that is
missing is an end tag for each tag that is open.  End tags for some of them, the innermost first,
leave the others open (`openTags_closing`), and end tags for all of them close the text
(`close_of_unclosed`).  Names with quotes are left out: a quote would keep the end tag itself open.
-/

namespace DocMarkdown

open Markup (Quote Reading Token endTagName firstElement localName openTags tagName)

/-! ## End tags

An end tag has its name from what stands between its brackets, less the space at the end.  The name
of a start tag will do for that: it has no space, and no `>` unless a quote stands before it
(`gt_notMem_of_extent`). -/

namespace Markup

/-- No quote is in a name. -/
def Unquoted (name : List Char) : Prop :=
  '\'' ∉ name ∧ '"' ∉ name

/-- **End tags for some names**, in their order. -/
def closing (names : List (List Char)) : List Token :=
  names.map .endTag

/-- A tag that is open behind a token was open before it, or it is the token. -/
theorem Token.mem_of_nest {t : Token} {opened opened' : List (List Char)} {name : List Char}
    (h : t.nest opened = some opened') (hname : name ∈ opened') :
    name ∈ opened ∨ ∃ content, t = .startTag content ∧ tagName content = name := by
  cases t with
  | startTag content =>
    obtain rfl := Option.some.inj h
    rcases List.mem_cons.mp hname with rfl | hmem
    · exact .inr ⟨content, rfl, rfl⟩
    · exact .inl hmem
  | endTag content =>
    rcases opened with _ | ⟨tag, tags⟩
    · contradiction
    · rw [nest] at h
      split at h
      · obtain rfl := Option.some.inj h
        exact .inl (List.mem_cons_of_mem tag hname)
      · contradiction
  | _ =>
    obtain rfl := Option.some.inj h
    exact .inl hname

/-- **The open tags are those of start tags**, if none was open before. -/
theorem exists_startTag_of_openTags {opened opened' : List (List Char)} {ts : List Token}
    (h : openTags opened ts = some opened') {name : List Char} (hname : name ∈ opened') :
    name ∈ opened ∨ ∃ content, .startTag content ∈ ts ∧ tagName content = name := by
  induction ts generalizing opened with
  | nil =>
    obtain rfl := Option.some.inj h
    exact .inl hname
  | cons t ts ih =>
    obtain ⟨next, hnest, hopen⟩ := Option.bind_eq_some_iff.mp h
    rcases ih hopen with hmem | ⟨content, hcontent, hcalled⟩
    · rcases Token.mem_of_nest hnest hmem with hmem | ⟨content, rfl, hcalled⟩
      · exact .inl hmem
      · exact .inr ⟨content, List.mem_cons_self, hcalled⟩
    · exact .inr ⟨content, List.mem_cons_of_mem t hcontent, hcalled⟩

/-- End tags close the tags that were opened last. -/
theorem openTags_closing {closed : List (List Char)} (opened : List (List Char))
    (h : ∀ name ∈ closed, endTagName name = name) :
    openTags (closed ++ opened) (closing closed) = some opened := by
  induction closed with
  | nil => rfl
  | cons name closed ih =>
    obtain ⟨hname, hclosed⟩ := List.forall_mem_cons.mp h
    have hnest : (Token.endTag name).nest (name :: (closed ++ opened)) = some (closed ++ opened) :=
      if_pos hname.symm
    rw [closing, List.map_cons, List.cons_append, openTags, hnest]
    exact ih hclosed

/-- A tag ends at a `>` outside quotes, so none stands in front of the first quote of its
content. -/
theorem gt_notMem_of_extent {name rest : List Char} {last : Option Quote} (hname : Unquoted name)
    (h : extent Token.readTag.tagRule none (name ++ rest) = .unclosed last) : '>' ∉ name := by
  intro hgt
  obtain ⟨front, behind, rfl, hfront⟩ := List.eq_append_cons_of_mem hgt
  have hplain : ∀ c ∈ front, c ≠ '>' ∧ c ≠ '\'' ∧ c ≠ '"' := fun c hc =>
    ⟨fun h => hfront (h ▸ hc), fun h => hname.1 (List.mem_append_left _ (h ▸ hc)),
      fun h => hname.2 (List.mem_append_left _ (h ▸ hc))⟩
  rw [List.append_assoc, List.cons_append,
    extent_append_cons _ (Token.extent_tagRule_plain hplain) (if_pos ⟨rfl, rfl⟩)] at h
  contradiction

/-- **What the end tag of an open tag is**: a whole token, under the name of the tag. -/
structure Closes (name : List Char) : Prop where
  isWhole : (Token.endTag name).IsWhole
  endTagName : endTagName name = name

/-- The name of a start tag that has been read closes it, if no quote is in it. -/
theorem closes_tagName {content : List Char} (h : (Token.startTag content).IsWhole)
    (hname : Unquoted (tagName content)) : Closes (tagName content) := by
  have hcontent : extent Token.readTag.tagRule none
      (tagName content ++ content.dropWhile (!isSpace ·)) = .unclosed none := by
    rw [tagName, List.takeWhile_append_dropWhile]
    exact h.2.2
  refine ⟨?_, endTagName_of_not_isSpace fun c hc => ?_⟩
  · exact Token.extent_tagRule_plain fun c hc =>
      ⟨fun h => gt_notMem_of_extent hname hcontent (h ▸ hc),
        fun h => hname.1 (h ▸ hc), fun h => hname.2 (h ▸ hc)⟩
  · simpa using List.all_eq_true.mp List.all_takeWhile c hc

/-- A start tag begins an element. -/
theorem firstElement_ne_nil {content : List Char} {ts : List Token}
    (h : .startTag content ∈ ts) : firstElement ts ≠ [] := by
  induction ts with
  | nil => contradiction
  | cons t ts ih =>
    cases t with
    | startTag | emptyTag => exact List.cons_ne_nil _ _
    | _ => exact ih (List.mem_of_ne_of_mem (by simp) h)

/-- End tags are read back. -/
theorem of_closing {names : List (List Char)} (h : ∀ name ∈ names, Closes name) :
    Reading.of ((closing names).flatMap Token.source) = ⟨closing names, none⟩ := by
  induction names with
  | nil => exact Reading.of_nil
  | cons name names ih =>
    obtain ⟨hname, hnames⟩ := List.forall_mem_cons.mp h
    have hmeets : (Token.endTag name).Meets ((closing names).flatMap Token.source) :=
      fun content htext => nomatch htext
    have hclosing : closing (name :: names) = .endTag name :: closing names := rfl
    rw [hclosing, List.flatMap_cons, Reading.of_source hname.isWhole hmeets, ih hnames]
    rfl

/-- End tags are no running text. -/
theorem beginsNoText_closing (names : List (List Char)) :
    Token.BeginsNoText ((closing names).flatMap Token.source) := by
  rcases names with _ | ⟨name, names⟩
  · exact Token.beginsNoText_dropWhile []
  · rintro c ⟨⟩
    rfl

end Markup

/-! ## Texts that end within an element -/

namespace Element

variable {text : String} {reading : Reading}

/-- **A text ends within an element** when it can be read to its end and a tag is open there, the
innermost of which is told. -/
theorem parse_eq_unclosed_iff {name : String}
    (hreading : Reading.of (dropByteOrderMark text.toList) = reading) :
    parse text = .error (.unclosed name) ↔
      reading.fault? = none ∧ (∀ t ∈ reading.tokens, t.Readable) ∧
        ∃ tag tags, openTags [] reading.tokens = some (tag :: tags) ∧ name = localName tag := by
  constructor
  · intro h
    obtain ⟨hfault, b, hfeed, hfinish⟩ := exists_finish_of_parse hreading
      fun error position hmalformed => by simp [h] at hmalformed
    obtain ⟨hreadable, hopen⟩ := (Builder.feed?_nesting _ _ _).mp ⟨b, hfeed, rfl⟩
    rw [h, Builder.finish] at hfinish
    rcases hframes : b.frames with _ | ⟨f, fs⟩
    · rcases hroot : b.root? with _ | root <;> simp [hframes, hroot] at hfinish
    · rw [hframes] at hfinish
      have htags : b.tags = f.tag :: fs.map Frame.tag := by
        rw [Builder.tags, hframes, List.map_cons]
      exact ⟨hfault, hreadable, f.tag, fs.map Frame.tag, htags ▸ hopen,
        LoadError.unclosed.inj (Except.error.inj hfinish)⟩
  · rintro ⟨hfault, hreadable, tag, tags, hopen, rfl⟩
    obtain ⟨b, hfeed, htags⟩ := (Builder.feed?_nesting .empty _ _).mpr ⟨hreadable, hopen⟩
    obtain ⟨f, fs, hframes, rfl, -⟩ := List.map_eq_cons_iff.mp htags
    rw [parse_of_feed? hreading hfault hfeed, Builder.finish, hframes]
    rfl

end Element

/-! ## Texts with end tags behind them

No end tag is running text, so the text in front is read as it was, and the end tags behind it as
they are.  What is left is to take them off the open tags. -/

/-- **End tags for some names**, as they are written. -/
def closingText (names : List (List Char)) : String :=
  String.ofList ((Markup.closing names).flatMap Token.source)

/-- End tags are read behind all that stands before them. -/
theorem Markup.of_closingText {text : String} {names : List (List Char)} (htext : text ≠ "")
    (hfault : (Reading.of (dropByteOrderMark text.toList)).fault? = none)
    (hnames : ∀ name ∈ names, Closes name) :
    Reading.of (dropByteOrderMark (text ++ closingText names).toList)
      = ⟨(Reading.of (dropByteOrderMark text.toList)).tokens ++ closing names, none⟩ := by
  rw [String.toList_append, dropByteOrderMark_append _ (mt String.toList_eq_nil_iff.mp htext),
    closingText, String.toList_ofList, Reading.of_append hfault (beginsNoText_closing names),
    of_closing hnames, Reading.prepend_mk_none]

section

variable {text : String} {name : String} {opened : List (List Char)}

/-- Each open tag of a text has an end tag, if there is no quote in its name. -/
theorem Markup.closes_of_openTags {cs : List Char}
    (hopen : openTags [] (Reading.of cs).tokens = some opened)
    (hopened : ∀ tag ∈ opened, Unquoted tag) : ∀ tag ∈ opened, Closes tag := by
  intro tag htag
  rcases exists_startTag_of_openTags hopen htag with hnone | ⟨content, hmem, rfl⟩
  · contradiction
  · exact closes_tagName (Reading.isWhole_of_mem_tokens hmem) (hopened _ htag)

/-- **End tags for the tags that were opened last leave the others open**: the text is then closed,
or it ends within the innermost that is left. -/
theorem Element.parse_append_closingText {closed : List (List Char)}
    (h : Element.parse text = .error (.unclosed name))
    (hopen : openTags [] (Reading.of (dropByteOrderMark text.toList)).tokens
      = some (closed ++ opened))
    (hclosed : ∀ tag ∈ closed, Markup.Closes tag) :
    match opened with
    | [] => ∃ root, parse (text ++ closingText closed) = .ok root
    | tag :: _ => parse (text ++ closingText closed) = .error (.unclosed (localName tag)) := by
  obtain ⟨hfault, hreadable, tag, tags, hfirst, -⟩ := (parse_eq_unclosed_iff rfl).mp h
  have htext : text ≠ "" := by
    rintro rfl
    cases parse_empty.symm.trans h
  have hreading := Markup.of_closingText htext hfault hclosed
  have hreadables : ∀ t ∈ (Reading.of (dropByteOrderMark text.toList)).tokens
      ++ Markup.closing closed, t.Readable := by
    refine List.forall_mem_append.mpr ⟨hreadable, fun t ht => ?_⟩
    obtain ⟨name, -, rfl⟩ := List.mem_map.mp ht
    exact fun content hcontent => nomatch hcontent
  have htags : openTags [] ((Reading.of (dropByteOrderMark text.toList)).tokens
      ++ Markup.closing closed) = some opened := by
    rw [Markup.openTags_append, hopen]
    exact Markup.openTags_closing opened fun tag htag => (hclosed tag htag).endTagName
  rcases opened with _ | ⟨tag', tags'⟩
  · obtain hnone | ⟨content, hcontent, -⟩ :=
      Markup.exists_startTag_of_openTags hfirst List.mem_cons_self
    · contradiction
    · exact (exists_parse_iff hreading).mpr ⟨rfl, hreadables, htags,
        Markup.firstElement_ne_nil (List.mem_append_left _ hcontent)⟩
  · exact (parse_eq_unclosed_iff hreading).mpr ⟨rfl, hreadables, tag', tags', htags, rfl⟩

/-- **A text that ends within an element lacks nothing but end tags.**  Some tags are open at its
end, and the innermost is told.  If there is no quote in their names, end tags for all of them, the
innermost first, give the text a tree, and with end tags for the first few only it ends within the
next. -/
theorem close_of_unclosed (h : Element.parse text = .error (.unclosed name)) :
    ∃ opened, openTags [] (Reading.of (dropByteOrderMark text.toList)).tokens = some opened ∧
      (∃ tag, opened.head? = some tag ∧ name = localName tag) ∧
      ((∀ tag ∈ opened, Markup.Unquoted tag) →
        (∃ root, Element.parse (text ++ closingText opened) = .ok root) ∧
        ∀ j tag, opened[j]? = some tag →
          Element.parse (text ++ closingText (opened.take j))
            = .error (.unclosed (localName tag))) := by
  obtain ⟨-, -, tag, tags, hopen, hname⟩ := (Element.parse_eq_unclosed_iff rfl).mp h
  refine ⟨tag :: tags, hopen, ⟨tag, rfl, hname⟩, fun hquotes => ⟨?_, fun j tag' hj => ?_⟩⟩
  · have hall : openTags [] (Reading.of (dropByteOrderMark text.toList)).tokens
        = some ((tag :: tags) ++ []) := by rw [hopen, List.append_nil]
    exact Element.parse_append_closingText h hall (Markup.closes_of_openTags hopen hquotes)
  · obtain ⟨hlt, hget⟩ := List.getElem?_eq_some_iff.mp hj
    have hparts : openTags [] (Reading.of (dropByteOrderMark text.toList)).tokens
        = some ((tag :: tags).take j ++ tag' :: (tag :: tags).drop (j + 1)) := by
      rw [hopen, ← hget, ← List.drop_eq_getElem_cons hlt, List.take_append_drop]
    exact Element.parse_append_closingText h hparts fun tag'' htag =>
      Markup.closes_of_openTags hopen hquotes tag'' (List.mem_of_mem_take htag)

end

/-- A text behind a byte order mark that ends within an element behind its root; the name of the
innermost has a slash at its end, and a `>` stands between quotes in its tag. -/
def unclosedText : String :=
  "\uFEFF<r/><p:a>x<b/ e='>'>&lt;y"

/-- The names of its open tags, the innermost first. -/
def unclosedTags : List (List Char) :=
  ["b/".toList, "p:a".toList]

theorem close_of_unclosed_unclosedText :
    Element.parse unclosedText = .error (.unclosed "b/") ∧
      openTags [] (Reading.of (dropByteOrderMark unclosedText.toList)).tokens = some unclosedTags ∧
      (∀ tag ∈ unclosedTags, Markup.Unquoted tag) ∧
      (∃ root, Element.parse (unclosedText ++ closingText unclosedTags) = .ok root) ∧
      Element.parse (unclosedText ++ closingText (unclosedTags.take 1))
        = .error (.unclosed "a") := by
  have h : Element.parse unclosedText = .error (.unclosed "b/") := by decide +kernel
  have htags : openTags [] (Reading.of (dropByteOrderMark unclosedText.toList)).tokens
      = some unclosedTags := by decide +kernel
  have hquotes : ∀ tag ∈ unclosedTags, Markup.Unquoted tag := by
    simp [unclosedTags, Markup.Unquoted]
  obtain ⟨opened, hopen, -, hclose⟩ := close_of_unclosed h
  obtain rfl : unclosedTags = opened := Option.some.inj (htags.symm.trans hopen)
  obtain ⟨hall, hsome⟩ := hclose hquotes
  exact ⟨h, htags, hquotes, hall, hsome 1 "p:a".toList rfl⟩

end DocMarkdown
