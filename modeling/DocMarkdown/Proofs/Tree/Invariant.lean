import DocMarkdown.Proofs.Tree.Insertion
import DocMarkdown.Proofs.Tree.Prefix

/-!
# Proofs/Tree/Invariant — what holds between two tokens

The reader of markup keeps the names of the open tags and checks end tags against them (`openTags`);
a tree in the making keeps elements, text and a root.  Between two tokens they agree
(`Invariant.of_feed?`), so nothing is lost on the way: an end tag that the reader lets pass has an
element to complete (`step_eq_trust`), and text that is not all blank has one to go to
(`settle_of_not_blank`).
-/

namespace DocMarkdown

open Markup (MarkupError Reading Token endTagName localName openTags)

/-! ## Outermost elements -/

namespace Markup

/-- The token completes an element. -/
def Token.completes : Token → Bool
  | emptyTag _ => true
  | endTag _ => true
  | _ => false

/-- **An element outside all others has been completed**: a token among these completed one, and no
tag was open behind it. -/
def HasOutermost (ts : List Token) : Prop :=
  ∃ front t, front ++ [t] <+: ts ∧ t.completes = true ∧ openTags [] (front ++ [t]) = some []

theorem not_hasOutermost_nil : ¬ HasOutermost [] := by
  rintro ⟨front, t, hprefix, -⟩
  simp at hprefix

theorem hasOutermost_concat {ts : List Token} {t : Token} :
    HasOutermost (ts ++ [t]) ↔
      HasOutermost ts ∨ t.completes = true ∧ openTags [] (ts ++ [t]) = some [] := by
  constructor
  · rintro ⟨front, u, hprefix, hu⟩
    rcases List.prefix_concat_iff.mp hprefix with heq | hprefix
    · have hlast : u = t := List.singleton_inj.mp (List.append_inj' heq rfl).2
      rw [heq, hlast] at hu
      exact .inr hu
    · exact .inl ⟨front, u, hprefix, hu⟩
  · rintro (⟨front, u, hprefix, hu⟩ | ht)
    · exact ⟨front, u, hprefix.trans (List.prefix_append ts [t]), hu⟩
    · exact ⟨ts, t, List.prefix_rfl, ht⟩

end Markup

namespace Builder

variable {b next : Builder} {t : Token} {ts : List Token}

/-! ## On the reader's word

`trust` is the step of a builder that does not look at names.  It has a way out where no element is
open, and would complete an element under any name; tokens that nest leave it no use for either. -/

/-- A token that has a place keeps the open tags as the reader does. -/
theorem nest_of_step (h : b.step t = .ok next) : t.nest b.tags = some next.tags :=
  ((step_nesting b t next.tags).mp ⟨next, h, rfl⟩).2

/-- **The innermost element is complete**; where none is open, nothing is done. -/
def pop (b : Builder) : Builder :=
  match b.frames with
  | [] => b
  | f :: fs => { b with frames := fs }.addElement f.close

/-- **One more token, on the reader's word**: an end tag completes the innermost element, under
whatever name, and is passed over where none is open. -/
def trust (b : Builder) : Token → Except MarkupError Builder
  | .endTag _ => .ok b.settle.pop
  | t => b.step t

/-- An end tag that the reader lets pass has an element to complete. -/
theorem exists_frame_of_nest {content : List Char} {opened : List (List Char)}
    (h : (Token.endTag content).nest b.tags = some opened) :
    ∃ f fs, b.frames = f :: fs ∧ f.tag = endTagName content := by
  cases hb : b.frames with
  | nil => simp [tags, hb, Token.nest] at h
  | cons f fs =>
    rw [tags, hb, List.map_cons, Token.nest] at h
    split at h
    · next htag => exact ⟨f, fs, rfl, htag⟩
    · contradiction

/-- **A token that the reader lets pass is taken on its word.** -/
theorem step_eq_trust {opened : List (List Char)} (h : t.nest b.tags = some opened) :
    b.step t = b.trust t := by
  cases t with
  | endTag content =>
    rw [← tags_settle] at h
    obtain ⟨f, fs, hframes, htag⟩ := exists_frame_of_nest h
    simp only [step, trust, closeElement, pop, hframes, if_pos htag]
  | _ => rfl

/-- **A token that the reader does not let pass is an error.** -/
theorem exists_error_of_nest (h : t.nest b.tags = none) : ∃ error, b.step t = .error error := by
  cases hstep : b.step t with
  | error error => exact ⟨error, rfl⟩
  | ok next =>
    rw [nest_of_step hstep] at h
    contradiction

/-! ## What a step keeps -/

/-- The names of open elements are the local names of the open tags. -/
theorem map_name_frames (b : Builder) : b.frames.map Frame.name = b.tags.map localName := by
  rw [tags, List.map_map]
  rfl

theorem Rooted.step (hb : b.Rooted) (h : b.step t = .ok next) : next.Rooted := by
  cases ht : t.isLoose with
  | true =>
    rw [step_of_isLoose b ht] at h
    obtain rfl := Except.ok.inj h
    exact rooted_addText _ hb
  | false => exact rooted_of_pending (pending_of_step ht h)

@[simp] theorem root?_addNode (b : Builder) (n : Node) : (b.addNode n).root? = b.root? := by
  unfold addNode
  split <;> rfl

@[simp] theorem root?_settle (b : Builder) : b.settle.root? = b.root? := by
  unfold settle
  split
  · rfl
  · exact root?_addNode _ _

/-- A complete element is the root where no tag is open, unless there is one. -/
theorem isSome_root?_addElement (b : Builder) (e : Element) :
    (b.addElement e).root?.isSome = (b.root?.isSome || b.tags.isEmpty) := by
  cases hb : b.frames <;> simp [addElement, tags, hb]

/-- **There is a root behind a token** if there was one, or if the token completes an element and no
tag is open behind it. -/
theorem isSome_root?_of_step (h : b.step t = .ok next) :
    next.root?.isSome = (b.root?.isSome || (t.completes && next.tags.isEmpty)) := by
  cases t with
  | startTag content =>
    obtain rfl := Frame.eq_of_map_ofTag h
    simp [openElement, Token.completes]
  | emptyTag content =>
    obtain rfl := Frame.eq_of_map_ofTag h
    simp [isSome_root?_addElement, Token.completes]
  | endTag content =>
    have hnest := nest_of_step h
    obtain ⟨f, fs, hframes, -⟩ := exists_frame_of_nest (b.tags_settle ▸ hnest)
    rw [step_eq_trust hnest, trust, pop, hframes] at h
    obtain rfl := Except.ok.inj h
    simp [isSome_root?_addElement, Token.completes]
  | _ =>
    obtain rfl := Except.ok.inj h
    simp [Token.completes]

/-! ## Between two tokens -/

/-- **What holds of a builder behind tokens**: it has the open tags of the reader, no text is
pending outside all elements, and it has a root as soon as an element outside all others is
complete. -/
structure Invariant (ts : List Token) (b : Builder) : Prop where
  openTags : openTags [] ts = some b.tags
  rooted : b.Rooted
  root : b.root?.isSome = true ↔ Markup.HasOutermost ts

theorem invariant_empty : Invariant [] empty :=
  ⟨rfl, rooted_empty, by simp [empty, Markup.not_hasOutermost_nil]⟩

theorem Invariant.step (hb : Invariant ts b) (h : b.step t = .ok next) :
    Invariant (ts ++ [t]) next := by
  have hopen : Markup.openTags [] (ts ++ [t]) = some next.tags := by
    rw [Markup.openTags_append, hb.openTags, Option.bind_some, Markup.openTags, nest_of_step h]
    rfl
  refine ⟨hopen, hb.rooted.step h, ?_⟩
  rw [isSome_root?_of_step h, Markup.hasOutermost_concat, hopen, ← hb.root]
  simp

/-- **The invariant holds between any two tokens.** -/
theorem Invariant.of_feed? (h : empty.feed? ts = some b) : Invariant ts b := by
  induction ts using List.reverseRecOn generalizing b with
  | nil =>
    obtain rfl := Option.some.inj h
    exact invariant_empty
  | append_singleton ts t ih =>
    obtain ⟨mid, hmid, hlast⟩ := exists_of_feed?_append h
    exact (ih hmid).step (step_of_feed?_singleton hlast)

/-- **Text that is not all blank settles in an element.** -/
theorem settle_of_not_blank (hb : b.Rooted) (h : b.pending.all Text.isBlank = false) :
    ∃ f fs, b.frames = f :: fs ∧
      b.settle.frames = f.push (.text (String.ofList b.pending)) :: fs := by
  obtain ⟨frames, pending, root?⟩ := b
  cases frames with
  | nil =>
    obtain rfl : pending = [] := hb rfl
    contradiction
  | cons f fs =>
    refine ⟨f, fs, rfl, ?_⟩
    rw [settle_of_frames, proseNodes, if_neg (Bool.eq_false_iff.mp h), Frame.push_eq_extend]

end Builder

/-! ## In a text -/

/-- **A builder between two tokens of a text**: it has taken the tokens before, and those behind are
to come. -/
structure Between (text : String) (before behind : List Token) (b : Builder) : Prop where
  tokens : (Reading.of (dropByteOrderMark text.toList)).tokens = before ++ behind
  run : Builder.empty.run 0 before = .ok b

theorem root?_of_between {text : String} {before more behind behind' : List Token}
    {b next : Builder} {root : Element} (h : Between text before behind b)
    (hnext : Between text (before ++ more) behind' next) (hroot : b.root? = some root) :
    next.root? = some root := by
  have hfeed := (Builder.run_eq_ok_iff 0 _).mp hnext.run
  rw [Builder.feed?_append, (Builder.run_eq_ok_iff 0 _).mp h.run] at hfeed
  exact Builder.root?_of_feed? hfeed hroot

/-- **Nothing is lost between the tokens of a text.**  The open elements are those of the open tags
that the reader keeps, no text is pending outside them, and the root is set as soon as an element
outside all others is complete, once and for all.  So each token comes as on the reader's word, an
end tag finds an element, and text that is not all blank becomes a node. -/
theorem invariant_of_between {text : String} {before behind : List Token} {b : Builder}
    (h : Between text before behind b) :
    ∃ opened, openTags [] before = some opened ∧ b.frames.map Frame.name = opened.map localName ∧
      (b.frames = [] → b.pending = []) ∧
      (b.root?.isSome = true ↔ Markup.HasOutermost before) ∧
      (∀ more behind' next root, Between text (before ++ more) behind' next →
        b.root? = some root → next.root? = some root) ∧
      (∀ content rest, (Token.endTag content).nest opened = some rest →
        ∃ f fs, b.frames = f :: fs ∧ f.tag = endTagName content) ∧
      (∀ t rest, t.nest opened = some rest → b.step t = b.trust t) ∧
      (∀ t, t.nest opened = none → ∃ error, b.step t = .error error) ∧
      (b.pending.all Text.isBlank = false → ∃ f fs, b.frames = f :: fs ∧
        b.settle.frames = f.push (.text (String.ofList b.pending)) :: fs) := by
  have hinv := Builder.Invariant.of_feed? ((Builder.run_eq_ok_iff 0 _).mp h.run)
  exact ⟨b.tags, hinv.openTags, b.map_name_frames, hinv.rooted, hinv.root,
    fun _ _ _ _ => root?_of_between h, fun _ _ => Builder.exists_frame_of_nest,
    fun _ _ => Builder.step_eq_trust, fun _ => Builder.exists_error_of_nest,
    Builder.settle_of_not_blank hinv.rooted⟩

/-- A text with an element that is complete, and one with a prefix in its name and text in it that
is to be completed. -/
def halfText : String :=
  "<a/><p:b>x&lt;</p:b>"

/-- The builder before the last token. -/
def halfBuilder : Builder :=
  ⟨[⟨"p:b".toList, [], []⟩], ['x', '<'], some ⟨"a", [], []⟩⟩

theorem invariant_of_between_halfText :
    ∃ before, Between halfText before [.endTag "p:b".toList] halfBuilder ∧
      openTags [] before = some ["p:b".toList] ∧ Markup.HasOutermost before ∧
      halfBuilder.frames.map Frame.name = ["b"] ∧
      ∃ f fs, halfBuilder.frames = f :: fs ∧
        halfBuilder.settle.frames = f.push (.text "x<") :: fs := by
  have h : Between halfText [.emptyTag ['a'], .startTag "p:b".toList, .text ['x'],
      .reference "lt".toList] [.endTag "p:b".toList] halfBuilder :=
    ⟨by decide +kernel, by decide +kernel⟩
  obtain ⟨opened, hopened, hnames, -, hroot, -, -, -, -, hsettle⟩ := invariant_of_between h
  obtain rfl : ["p:b".toList] = opened := Option.some.inj hopened
  exact ⟨_, h, hopened, hroot.mp rfl, hnames, hsettle (by decide)⟩

end DocMarkdown
