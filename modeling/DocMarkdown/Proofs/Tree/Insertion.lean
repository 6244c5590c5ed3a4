import DocMarkdown.Convert
import DocMarkdown.Proofs.Markup.Seam
import DocMarkdown.Proofs.Text.LineEnd
import DocMarkdown.Proofs.Tree.Marks
import DocMarkdown.Proofs.Tree.Nesting
import DocMarkdown.Proofs.Tree.Written
import Mathlib.Data.List.DropRight
import Mathlib.Logic.Relation

/-!
# Proofs/Tree/Insertion — what may be put into a text without changing its tree

Between two tokens of a text, or within its running text, there is room for more.  A note goes
anywhere, as long as it does not tear a line end in two; blanks go where nothing but blanks is
pending, or where no element is open.  A builder does not see either: a note leaves it as it is, and
pending text that is all blank is never settled to a node (`exists_feed?_of_blank`).  So the text
has the tree that it had, after any number of such insertions (`parse_of_insertions`).
-/

namespace DocMarkdown

open Markup (Reading Token openTags)
open Markup.Reading (Parted Seam runningText)

/-! ## Pending runs

A comment does not end running text for the builder, so what is pending at a place may come from
several tokens in front of it, and go on over several behind. -/

namespace Markup

/-- Pending text stays pending over a token: it is running text itself, or silent. -/
def Token.isLoose (t : Token) : Bool :=
  t.isProse || t.isSilent

/-- The running text of tokens. -/
def proseOf (ts : List Token) : List Char :=
  ts.flatMap fun t => t.prose?.getD []

/-- The text that is pending behind tokens, back to the last tag or CDATA section. -/
def runBefore (ts : List Token) : List Char :=
  proseOf (ts.rtakeWhile Token.isLoose)

/-- The text that goes on with what is pending, up to the next tag or CDATA section. -/
def runBehind (ts : List Token) : List Char :=
  proseOf (ts.takeWhile Token.isLoose)

/-- **The pending run** around a place between tokens. -/
def pendingRun (ts us : List Token) : List Char :=
  runBefore ts ++ runBehind us

theorem runBehind_cons_of_isLoose {t : Token} (ts : List Token) (h : t.isLoose = true) :
    runBehind (t :: ts) = t.prose?.getD [] ++ runBehind ts := by
  rw [runBehind, List.takeWhile_cons_of_pos h]
  rfl

theorem runBefore_append_of_isLoose {t : Token} (ts : List Token) (h : t.isLoose = true) :
    runBefore (ts ++ [t]) = runBefore ts ++ t.prose?.getD [] := by
  rw [runBefore, List.rtakeWhile_concat_pos _ _ _ h, proseOf, List.flatMap_append,
    List.flatMap_singleton]
  rfl

theorem runBefore_append_of_not_isLoose {t : Token} (ts : List Token) (h : t.isLoose = false) :
    runBefore (ts ++ [t]) = [] := by
  rw [runBefore, List.rtakeWhile_concat_neg _ _ _ (by simp [h])]
  rfl

/-- **A run is the same from each place in it.** -/
theorem pendingRun_append {ms : List Token} (ts us : List Token)
    (h : ∀ m ∈ ms, m.isLoose = true) : pendingRun (ts ++ ms) us = pendingRun ts (ms ++ us) := by
  induction ms generalizing ts with
  | nil => rw [List.append_nil, List.nil_append]
  | cons m ms ih =>
    obtain ⟨hm, hms⟩ := List.forall_mem_cons.mp h
    rw [List.append_cons, ih (ts ++ [m]) hms, pendingRun, pendingRun, List.cons_append,
      runBefore_append_of_isLoose ts hm, runBehind_cons_of_isLoose _ hm, List.append_assoc]

theorem runBehind_runningText_append (cs : List Char) (us : List Token) :
    runBehind (runningText cs ++ us) = Text.unifyLineEnds cs ++ runBehind us := by
  unfold runningText
  split
  · next h => rw [h]; rfl
  · exact runBehind_cons_of_isLoose us rfl

end Markup

open Markup (runBefore runBehind pendingRun)

theorem Markup.Token.isLiteral_of_isBlank {c : Char} (h : Text.isBlank c = true) :
    Token.isLiteral c = true := by
  simp only [Token.isLiteral, Bool.and_eq_true, bne_iff_ne]
  exact ⟨by rintro rfl; contradiction, by rintro rfl; contradiction⟩

namespace Builder

/-- A loose token adds its running text. -/
theorem step_of_isLoose (b : Builder) {t : Token} (h : t.isLoose = true) :
    b.step t = .ok (b.addText (t.prose?.getD [])) := by
  cases t with
  | text content => rfl
  | reference name => rfl
  | comment content | instruction content | doctype content =>
    exact congrArg Except.ok b.addText_nil.symm
  | _ => contradiction

/-- Behind any other token nothing is pending. -/
theorem pending_of_step {b next : Builder} {t : Token} (ht : t.isLoose = false)
    (h : b.step t = .ok next) : next.pending = [] := by
  cases t with
  | startTag content =>
    obtain rfl := Frame.eq_of_map_ofTag h
    exact pending_settle b
  | emptyTag content =>
    obtain rfl := Frame.eq_of_map_ofTag h
    exact (pending_addElement _ _).trans (pending_settle b)
  | cdata content =>
    obtain rfl := Except.ok.inj h
    exact (pending_addNode _ _).trans (pending_settle b)
  | endTag content =>
    rw [step, closeElement] at h
    split at h
    · contradiction
    · split at h
      · obtain rfl := Except.ok.inj h
        exact (pending_addElement _ _).trans (pending_settle b)
      · contradiction
  | _ => contradiction

@[simp] theorem frames_addText (b : Builder) (cs : List Char) :
    (b.addText cs).frames = b.frames := by
  cases hb : b.frames <;> simp [addText, hb]

theorem pending_addText {b : Builder} (cs : List Char) (h : b.frames ≠ []) :
    (b.addText cs).pending = b.pending ++ cs := by
  cases hb : b.frames with
  | nil => contradiction
  | cons f fs => simp [addText, hb]

theorem addText_of_frames_nil {b : Builder} (cs : List Char) (h : b.frames = []) :
    b.addText cs = b := by
  simp [addText, h]

theorem exists_of_feed?_append {b final : Builder} {ts us : List Token}
    (h : b.feed? (ts ++ us) = some final) :
    ∃ mid, b.feed? ts = some mid ∧ mid.feed? us = some final := by
  rw [feed?_append] at h
  exact Option.bind_eq_some_iff.mp h

theorem step_of_feed?_singleton {b next : Builder} {t : Token} (h : b.feed? [t] = some next) :
    b.step t = .ok next := by
  rw [feed?] at h
  rcases hstep : b.step t with e | mid
  · simp [hstep, Except.toOption] at h
  · rw [hstep] at h
    exact congrArg Except.ok (Option.some.inj h)

/-- **What is pending in an element** is the run that its tokens end with. -/
theorem pending_of_feed? {b : Builder} {ts : List Token} (h : empty.feed? ts = some b)
    (hopen : b.frames ≠ []) : b.pending = runBefore ts := by
  induction ts using List.reverseRecOn generalizing b with
  | nil =>
    obtain rfl := Option.some.inj h
    exact absurd rfl hopen
  | append_singleton ts t ih =>
    obtain ⟨mid, hmid, hlast⟩ := exists_of_feed?_append h
    have hstep := step_of_feed?_singleton hlast
    cases ht : t.isLoose with
    | true =>
      rw [step_of_isLoose mid ht] at hstep
      obtain rfl := Except.ok.inj hstep
      rw [frames_addText] at hopen
      rw [pending_addText _ hopen, ih hmid hopen, Markup.runBefore_append_of_isLoose ts ht]
    | false =>
      rw [pending_of_step ht hstep, Markup.runBefore_append_of_not_isLoose ts ht]

/-! ## Blank pending text

Pending text that is blank as a whole becomes no node.  Until it is dropped, two builders may differ
in it, so they are compared up to their pending text (`Alike`). -/

/-- The builders differ in their pending text at most. -/
structure Alike (b b' : Builder) : Prop where
  frames : b'.frames = b.frames
  root? : b'.root? = b.root?

theorem Alike.refl (b : Builder) : b.Alike b := ⟨rfl, rfl⟩

theorem proseNodes_of_blank {cs : List Char} (h : cs.all Text.isBlank = true) :
    proseNodes cs = [] :=
  if_pos h

/-- Pending text that is blank settles to nothing, so a tag does not tell it from other. -/
theorem step_of_blank {f : Frame} {fs : List Frame} {p q : List Char} {root? : Option Element}
    {t : Token} (ht : t.isLoose = false) (hp : p.all Text.isBlank = true)
    (hq : q.all Text.isBlank = true) :
    step ⟨f :: fs, p, root?⟩ t = step ⟨f :: fs, q, root?⟩ t := by
  rw [step_of_frames, step_of_frames, proseNodes_of_blank hp, proseNodes_of_blank hq]
  cases t <;> first | rfl | contradiction

/-- **Pending text does not count as long as it is blank**: builders that have nothing else of
different come to the same. -/
theorem exists_feed?_of_blank {f : Frame} {fs : List Frame} {p q : List Char}
    {root? : Option Element} {ts : List Token} {final : Builder}
    (hp : (p ++ runBehind ts).all Text.isBlank = true)
    (hq : (q ++ runBehind ts).all Text.isBlank = true)
    (h : feed? ⟨f :: fs, p, root?⟩ ts = some final) :
    ∃ final', feed? ⟨f :: fs, q, root?⟩ ts = some final' ∧ final.Alike final' := by
  induction ts generalizing p q with
  | nil =>
    obtain rfl := Option.some.inj h
    exact ⟨_, rfl, ⟨rfl, rfl⟩⟩
  | cons t ts ih =>
    cases ht : t.isLoose with
    | true =>
      rw [Markup.runBehind_cons_of_isLoose ts ht, ← List.append_assoc] at hp hq
      rw [feed?, step_of_isLoose _ ht] at h ⊢
      exact ih hp hq h
    | false =>
      rw [List.all_append, Bool.and_eq_true] at hp hq
      rw [feed?, step_of_blank ht hp.1 hq.1] at h
      exact ⟨final, h, .refl final⟩

/-! ## More text at a place

The builder has not taken the running text on the left of the place yet, which may be part of a
longer token.  A note makes two tokens of that one, and only to a CR LF does this make a difference.
-/

theorem grow?_eq_some_iff {b b' : Builder} {cs : List Char} :
    b.grow? cs = some b' ↔ (Reading.of cs).fault? = none ∧
      b.feed? (Reading.of cs).tokens = some b' := by
  rw [grow?]
  cases (Reading.of cs).fault? <;> simp

/-- **Running text grows as one piece**, up to the next markup. -/
theorem grow?_append_of_isLiteral (b : Builder) {cs rest : List Char}
    (hcs : ∀ c ∈ cs, Token.isLiteral c = true) (hrest : Token.BeginsNoText rest) :
    b.grow? (cs ++ rest) = (b.addText (Text.unifyLineEnds cs)).grow? rest := by
  by_cases hnil : cs = []
  · rw [hnil]
    exact (congrArg (grow? · rest) b.addText_nil).symm
  · have hof : Reading.of ((Token.text cs).source ++ rest) = (Reading.of rest).cons (.text cs) :=
      Reading.of_source ⟨hnil, hcs⟩ fun _ _ => hrest
    exact grow?_of_step hof rfl

/-- Outside all elements running text is lost. -/
theorem grow?_append_of_outside {b : Builder} {cs : List Char} (rest : List Char)
    (hb : b.frames = []) (hcs : ∀ c ∈ cs, Token.isLiteral c = true) :
    b.grow? (cs ++ rest) = b.grow? rest := by
  have hlost : ∀ ds, (∀ d ∈ ds, Token.isLiteral d = true) →
      b.grow? (ds ++ rest.dropWhile Token.isLiteral)
        = b.grow? (rest.dropWhile Token.isLiteral) := by
    intro ds hds
    rw [grow?_append_of_isLiteral b hds (Token.beginsNoText_dropWhile rest),
      addText_of_frames_nil _ hb]
  have hfirst : ∀ c ∈ rest.takeWhile Token.isLiteral, Token.isLiteral c = true :=
    List.all_eq_true.mp List.all_takeWhile
  have hrest := hlost _ hfirst
  have hboth := hlost _ (List.forall_mem_append.mpr ⟨hcs, hfirst⟩)
  rw [List.takeWhile_append_dropWhile] at hrest
  rw [List.append_assoc, List.takeWhile_append_dropWhile] at hboth
  exact hboth.trans hrest.symm

variable {front behind left right : List Char} {ts us : List Token}

/-- **A note does not show**, unless it tears a line end in two. -/
theorem grow?_note (h : Seam front behind ts left right us) (htorn : ¬ Text.Torn left right)
    {note : List Char} (hnote : NoteWritten note) (b : Builder) :
    b.grow? (left ++ (note ++ behind)) = b.grow? (left ++ behind) := by
  obtain ⟨rest, rfl, -, hrest⟩ := h.behind
  obtain ⟨hleft, hright⟩ := List.forall_mem_append.mp h.literal
  have hbegins : Token.BeginsNoText (note ++ (right ++ rest)) := by
    obtain ⟨-⟩ | ⟨-, -⟩ := hnote <;> rintro c ⟨rfl⟩ <;> rfl
  calc b.grow? (left ++ (note ++ (right ++ rest)))
    _ = (b.addText (Text.unifyLineEnds left)).grow? (right ++ rest) := by
        rw [grow?_append_of_isLiteral b hleft hbegins, hnote.grow?]
    _ = (b.addText (Text.unifyLineEnds (left ++ right))).grow? rest := by
        rw [grow?_append_of_isLiteral _ hright hrest, addText_addText,
          Text.unifyLineEnds_append htorn]
    _ = b.grow? (left ++ (right ++ rest)) := by
        rw [← List.append_assoc, grow?_append_of_isLiteral b h.literal hrest]

/-- **Blanks do not show** outside all elements, nor in a run that is blank. -/
theorem exists_grow?_of_blank (h : Seam front behind ts left right us) {b final : Builder}
    {blanks : List Char} (hblanks : ∀ c ∈ blanks, Text.isBlank c = true)
    (hrun : b.frames ≠ [] → (b.pending ++ (Text.unifyLineEnds (left ++ right) ++
      runBehind us)).all Text.isBlank = true)
    (hgrow : b.grow? (left ++ behind) = some final) :
    ∃ final', b.grow? (left ++ (blanks ++ behind)) = some final' ∧ final.Alike final' := by
  obtain ⟨rest, rfl, rfl, hrest⟩ := h.behind
  have hliteral : ∀ c ∈ left ++ (blanks ++ right), Token.isLiteral c = true := by
    obtain ⟨hleft, hright⟩ := List.forall_mem_append.mp h.literal
    exact List.forall_mem_append.mpr ⟨hleft, List.forall_mem_append.mpr
      ⟨fun c hc => Token.isLiteral_of_isBlank (hblanks c hc), hright⟩⟩
  rw [← List.append_assoc, grow?_append_of_isLiteral b h.literal hrest] at hgrow
  rw [← List.append_assoc blanks, ← List.append_assoc, grow?_append_of_isLiteral b hliteral hrest]
  obtain ⟨frames, pending, root?⟩ := b
  rcases frames with _ | ⟨f, fs⟩
  · exact ⟨final, hgrow, .refl final⟩
  · have hall := hrun (List.cons_ne_nil f fs)
    have hmore : (pending ++ Text.unifyLineEnds (left ++ (blanks ++ right)) ++
        runBehind (Reading.of rest).tokens).all Text.isBlank = true := by
      simp only [List.all_append, Text.all_isBlank_unifyLineEnds, Bool.and_eq_true] at hall ⊢
      exact ⟨⟨hall.1, hall.2.1.1, List.all_eq_true.mpr hblanks, hall.2.1.2⟩, hall.2.2⟩
    rw [← List.append_assoc] at hall
    obtain ⟨hfault, hfeed⟩ := grow?_eq_some_iff.mp hgrow
    obtain ⟨final', hfeed', halike⟩ := exists_feed?_of_blank hall hmore hfeed
    exact ⟨final', grow?_eq_some_iff.mpr ⟨hfault, hfeed'⟩, halike⟩

end Builder

/-! ## Insertions -/

/-- **What does not count at a place of a text**, given the tokens before and after the place, and
the two sides of the running text that it is in.  A note does not, unless it tears a line end in
two; and blanks do not where no element is open, or where the whole run around them is blank. -/
inductive Insignificant (before : List Token) (left right : List Char) (after : List Token) :
    List Char → Prop
  | note {note : List Char} : NoteWritten note → ¬ Text.Torn left right →
      Insignificant before left right after note
  | blanks {blanks : List Char} : (∀ c ∈ blanks, Text.isBlank c = true) →
      openTags [] before = some [] ∨
        (pendingRun before (runningText (left ++ right) ++ after)).all Text.isBlank = true →
      Insignificant before left right after blanks

/-- **A text with something put into it that does not count**, between two tokens or within running
text. -/
inductive Insertion : String → String → Prop
  | intro {front behind inserted left right : List Char} {before after : List Token} :
      Parted (dropByteOrderMark (front ++ behind)) (dropByteOrderMark front)
        before left right after →
      Insignificant before left right after inserted →
      Insertion (String.ofList (front ++ behind)) (String.ofList (front ++ (inserted ++ behind)))

namespace Markup

theorem openTags_append (opened : List (List Char)) (ts us : List Token) :
    openTags opened (ts ++ us) = (openTags opened ts).bind (openTags · us) := by
  induction ts generalizing opened with
  | nil => rfl
  | cons t ts ih =>
    rw [List.cons_append, openTags, openTags, Option.bind_assoc]
    exact Option.bind_congr fun next _ => ih next

/-- Running text opens and closes nothing. -/
theorem openTags_of_texts (opened : List (List Char)) {ms : List Token}
    (h : ∀ m ∈ ms, ∃ content, m = .text content) : openTags opened ms = some opened := by
  induction ms with
  | nil => rfl
  | cons m ms ih =>
    obtain ⟨⟨content, rfl⟩, hms⟩ := List.forall_mem_cons.mp h
    exact ih hms

end Markup

/-- Where no tag is open, no element is, though running text may still have come. -/
theorem Builder.frames_of_openTags {ts mid : List Token} {b : Builder}
    (hb : Builder.empty.feed? ts = some b) (hmid : ∀ m ∈ mid, ∃ content, m = .text content)
    (h : openTags [] (ts ++ mid) = some []) : b.frames = [] := by
  obtain ⟨-, htags⟩ := (Builder.feed?_nesting .empty ts b.tags).mp ⟨b, hb, rfl⟩
  have htags' : openTags [] ts = some b.tags := htags
  rw [Markup.openTags_append, htags', Option.bind_some, Markup.openTags_of_texts _ hmid] at h
  exact List.map_eq_nil_iff.mp (Option.some.inj h)

/-- **What does not count leaves a builder on its way.** -/
theorem Insignificant.exists_grow? {front behind inserted left right : List Char}
    {before after : List Token} {final : Builder}
    (h : Insignificant before left right after inserted)
    (hparted : Parted (front ++ behind) front before left right after)
    (hgrow : Builder.empty.grow? (front ++ behind) = some final) :
    ∃ final', Builder.empty.grow? (front ++ (inserted ++ behind)) = some final' ∧
      final.Alike final' := by
  obtain ⟨ts, mid, l, r, us, hseam, rfl, hmid, htext, hsides⟩ := hparted.exists_seam
  rw [Builder.grow?_of_prepend (hseam.prepend _)] at hgrow ⊢
  obtain ⟨b, hb, hgrow⟩ := Option.bind_eq_some_iff.mp hgrow
  rw [hb, Option.bind_some]
  cases h with
  | note hnote htorn =>
    have htorn' : ¬ Text.Torn l r := by
      rcases hsides with ⟨rfl, rfl⟩ | rfl | rfl
      · exact htorn
      · exact fun h => absurd h.1 nofun
      · exact fun h => absurd h.2 nofun
    exact ⟨final, by rw [Builder.grow?_note hseam htorn' hnote, hgrow], .refl final⟩
  | blanks hblanks hrun =>
    refine Builder.exists_grow?_of_blank hseam hblanks (fun hopen => ?_) hgrow
    rw [Builder.pending_of_feed? hb hopen, ← Markup.runBehind_runningText_append, htext]
    have hloose : ∀ m ∈ mid, m.isLoose = true := by
      intro m hm
      obtain ⟨content, rfl⟩ := hmid m hm
      rfl
    have hsame : runBefore ts ++ runBehind (mid ++ (runningText (left ++ right) ++ after))
        = pendingRun (ts ++ mid) (runningText (left ++ right) ++ after) :=
      (Markup.pendingRun_append ts _ hloose).symm
    rw [hsame]
    exact hrun.resolve_left fun houtside => hopen (Builder.frames_of_openTags hb hmid houtside)

/-! ## Trees -/

/-- Nothing comes of a byte order mark, and nothing of its absence. -/
theorem grow?_dropByteOrderMark (cs : List Char) :
    Builder.empty.grow? (dropByteOrderMark cs) = Builder.empty.grow? cs := by
  have hmark : ∀ c ∈ ['\uFEFF'], Token.isLiteral c = true := List.all_eq_true.mp rfl
  unfold dropByteOrderMark
  split
  · exact (Builder.grow?_append_of_outside _ rfl hmark).symm
  · rfl

/-- What does not count, put before a text, is lost. -/
theorem Insignificant.grow?_append {inserted left right : List Char} {before after : List Token}
    (h : Insignificant before left right after inserted) (cs : List Char) :
    Builder.empty.grow? (inserted ++ cs) = Builder.empty.grow? cs := by
  cases h with
  | note hnote _ => exact hnote.grow? _ cs
  | blanks hblanks _ =>
    exact Builder.grow?_append_of_outside cs rfl fun c hc => Token.isLiteral_of_isBlank
      (hblanks c hc)

/-- **An insertion leaves the tree as it is.** -/
theorem Insertion.parse {text text' : String} {root : Element} (h : Insertion text text')
    (hparse : Element.parse text = .ok root) : Element.parse text' = .ok root := by
  obtain ⟨hparted, hinserted⟩ := h
  next front behind inserted _ _ _ _ =>
  obtain ⟨b, hb, hclosed, hroot⟩ := Element.parse_eq_ok_iff.mp hparse
  suffices hgrow : ∃ b', Builder.empty.grow? (dropByteOrderMark (front ++ (inserted ++ behind)))
      = some b' ∧ b.Alike b' by
    obtain ⟨b', hb', halike⟩ := hgrow
    refine Element.parse_eq_ok_iff.mpr ⟨b', ?_, halike.frames.trans hclosed,
      halike.root?.trans hroot⟩
    rwa [String.toList_ofList]
  rw [String.toList_ofList] at hb
  by_cases hfront : front = []
  · rw [hfront, List.nil_append, grow?_dropByteOrderMark] at hb
    rw [hfront, List.nil_append, grow?_dropByteOrderMark, hinserted.grow?_append]
    exact ⟨b, hb, .refl b⟩
  · rw [dropByteOrderMark_append _ hfront] at hb hparted
    rw [dropByteOrderMark_append _ hfront]
    exact hinserted.exists_grow? hparted hb

/-- **What does not count does not show.**  A text that has a tree keeps it, and its page, when any
number of notes and blanks are put into it where they do not count. -/
theorem parse_of_insertions {text text' : String} {root : Element}
    (h : Relation.ReflTransGen Insertion text text') (hparse : Element.parse text = .ok root) :
    Element.parse text' = .ok root ∧ convert text' = convert text := by
  have hparse' : Element.parse text' = .ok root := by
    induction h with
    | refl => exact hparse
    | tail _ hinsertion ih => exact hinsertion.parse ih
  exact ⟨hparse', by rw [convert, convert, hparse, hparse']⟩

/-- A comment within running text, and blanks in front of an end tag. -/
theorem parse_of_insertions_commentAndBlanks :
    let text := "\uFEFF<a>x &lt;<![CDATA[]]> </a>"
    let text' := "\uFEFF<a>x<!--n--> &lt;<![CDATA[]]>\u2003\r </a>"
    let root : Element := ⟨"a", [], [.text "x <", .cdata ""]⟩
    Relation.ReflTransGen Insertion text text' ∧ Element.parse text = .ok root ∧
      Element.parse text' = .ok root ∧ convert text' = convert text := by
  intro text text' root
  have hwithin : Parted
      (dropByteOrderMark ("\uFEFF<a>x".toList ++ " &lt;<![CDATA[]]> </a>".toList))
      (dropByteOrderMark "\uFEFF<a>x".toList) [.startTag ['a']] ['x'] [' ']
      [.reference ['l', 't'], .cdata [], .text [' '], .endTag ['a']] :=
    ⟨by decide +kernel, by decide⟩
  have hcomment : NoteWritten "<!--n-->".toList :=
    .comment (show ¬ ['-', '-', '>'] <:+: ['n'] by decide)
  have hfirst : Insertion text "\uFEFF<a>x<!--n--> &lt;<![CDATA[]]> </a>" :=
    .intro hwithin (.note hcomment fun h => absurd h.1 (by decide))
  have hbetween : Parted
      (dropByteOrderMark ("\uFEFF<a>x<!--n--> &lt;<![CDATA[]]>".toList ++ " </a>".toList))
      (dropByteOrderMark "\uFEFF<a>x<!--n--> &lt;<![CDATA[]]>".toList)
      [.startTag ['a'], .text ['x'], .comment ['n'], .text [' '], .reference ['l', 't'], .cdata []]
      [] [' '] [.endTag ['a']] :=
    ⟨by decide +kernel, by decide⟩
  have hblanks : ∀ c ∈ "\u2003\r".toList, Text.isBlank c = true :=
    List.all_eq_true.mp rfl
  have hsecond : Insertion "\uFEFF<a>x<!--n--> &lt;<![CDATA[]]> </a>" text' :=
    .intro hbetween (.blanks hblanks (.inr (by decide)))
  have hboth : Relation.ReflTransGen Insertion text text' := .tail (.single hfirst) hsecond
  have hparse : Element.parse text = .ok root := by decide +kernel
  exact ⟨hboth, hparse, parse_of_insertions hboth hparse⟩

end DocMarkdown
