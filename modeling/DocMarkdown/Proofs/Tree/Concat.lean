import DocMarkdown.Proofs.Tree.Descent
import DocMarkdown.Proofs.Tree.Ending
import DocMarkdown.Proofs.Tree.Insertion
import DocMarkdown.Proofs.Tree.Prefix

/-!
# Proofs/Tree/Concat — one text behind another

A text that is read to its end outside all elements leaves a builder that is as good as empty: all
that it remembers is the root, if it has found one.  So a text behind it is read as it would be by
itself.  Places are further back by the width of the first text (`conclude_add`), and a root that
has been found is not replaced (`conclude_withRoot`).  Running text may go on from one text into the
other, but outside all elements it is lost on either side (`conclude_append_of_outside`).
-/

namespace DocMarkdown

open Markup (Fault MarkupError Reading Token)
open Text (width)

/-! ## What a builder comes to

`conclude` goes on reading from any state: a builder, a place, and what is still to come.  What
stands in front of a text shows in the first two only, and each part of this section says how much
one part of them counts for. -/

/-- The same error, told so many bytes further back. -/
def LoadError.further (n : Nat) : LoadError → LoadError
  | malformed error position => malformed error (n + position)
  | unclosed name => unclosed name
  | noRoot => noRoot

/-- **What comes of a text behind a root**, if there is one, given what comes of the text by itself:
the root wins, but an error within the text is told. -/
def Element.behindRoot (root? : Option Element) :
    Except LoadError Element → Except LoadError Element
  | .ok e => .ok (root?.getD e)
  | .error .noRoot => root?.elim (.error .noRoot) .ok
  | .error e => .error e

namespace Builder

/-- **What a builder comes to** with what reading has found from a byte on. -/
def conclude (b : Builder) (start : Nat) (reading : Reading) : Except LoadError Element :=
  b.outcome (reading.fault?.map fun f => { f with offset := start + f.offset })
    (place start reading.tokens)

theorem ofReading_eq_conclude (reading : Reading) :
    Element.ofReading reading = empty.conclude 0 reading := by
  have hfault : (reading.fault?.map fun f : Fault => { f with offset := 0 + f.offset })
      = reading.fault? := by
    simp
  rw [conclude, hfault]
  exact outcome_place reading.fault? empty 0 reading.tokens

theorem conclude_cons (b : Builder) (start : Nat) (t : Token) (reading : Reading) :
    b.conclude start (reading.cons t) =
      match b.step t with
      | .error e => .error (.malformed e (e.position start t))
      | .ok next => next.conclude (start + t.size) reading := by
  have hfault : ((reading.cons t).fault?.map fun f => { f with offset := start + f.offset })
      = reading.fault?.map fun f => { f with offset := start + t.size + f.offset } := by
    simp [Reading.cons, Function.comp_def, Nat.add_assoc]
  rw [conclude, hfault]
  rfl

/-- **Tokens that have their places are taken first.** -/
theorem conclude_prepend {b mid : Builder} {ts : List Token} (h : b.feed? ts = some mid)
    (start : Nat) (reading : Reading) :
    b.conclude start (reading.prepend ts)
      = mid.conclude (start + width (ts.flatMap Token.source)) reading := by
  induction ts generalizing b start with
  | nil =>
    obtain rfl := Option.some.inj h
    rfl
  | cons t ts ih =>
    have hcons : reading.prepend (t :: ts) = (reading.prepend ts).cons t := rfl
    rw [feed?] at h
    rw [hcons, conclude_cons]
    rcases hstep : b.step t with e | next
    · simp [hstep, Except.toOption] at h
    · rw [hstep] at h
      dsimp only
      rw [ih h, List.flatMap_cons, Text.width_append, ← Nat.add_assoc]
      rfl

/-! ### From another place -/

theorem position_add (error : MarkupError) (n start : Nat) (t : Token) :
    error.position (n + start) t = n + error.position start t := by
  cases error <;> simp [MarkupError.position, Nat.add_assoc]

theorem mapError_finish (b : Builder) (n : Nat) : b.finish.mapError (.further n) = b.finish := by
  rw [finish]
  rcases b.frames with _ | ⟨f, fs⟩
  · rcases b.root? with _ | root <;> rfl
  · rfl

theorem outcome_add (fault? : Option Fault) (b : Builder) (n start : Nat) (ts : List Token) :
    b.outcome (fault?.map fun f => { f with offset := n + f.offset }) (place (n + start) ts)
      = (b.outcome fault? (place start ts)).mapError (.further n) := by
  induction ts generalizing b start with
  | nil =>
    rcases fault? with _ | f
    · exact (mapError_finish b n).symm
    · rfl
  | cons t ts ih =>
    rw [place, place, outcome, outcome]
    rcases b.step t with e | next
    · exact congrArg (fun p => Except.error (LoadError.malformed e p)) (position_add e n start t)
    · rw [Nat.add_assoc]
      exact ih next (start + t.size)

/-- **Places are further back by what stands before.** -/
theorem conclude_add (b : Builder) (n start : Nat) (reading : Reading) :
    b.conclude (n + start) reading = (b.conclude start reading).mapError (.further n) := by
  rw [conclude, conclude, ← outcome_add, Option.map_map]
  simp only [Function.comp_def, Nat.add_assoc]

/-! ### Behind a root

The root is written once and not looked at before the end.  So a builder that has one takes the same
steps as one that has none. -/

/-- The builder with a root that comes before its own, if there is one. -/
def withRoot (root? : Option Element) (b : Builder) : Builder :=
  { b with root? := root?.or b.root? }

theorem withRoot_addElement (root? : Option Element) (b : Builder) (e : Element) :
    (b.withRoot root?).addElement e = (b.addElement e).withRoot root? := by
  obtain ⟨frames, pending, own?⟩ := b
  cases frames <;> simp [withRoot, addElement]

/-- **A step does not look at the root.** -/
theorem step_withRoot (root? : Option Element) (b : Builder) (t : Token) :
    (b.withRoot root?).step t = (b.step t).map (withRoot root?) := by
  obtain ⟨frames, pending, own?⟩ := b
  rcases frames with _ | ⟨f, fs⟩
  · rw [withRoot, step_of_nil, step_of_nil]
    cases t with
    | startTag content =>
      dsimp only
      rcases Frame.ofTag content with e | g <;> rfl
    | emptyTag content =>
      dsimp only
      rcases Frame.ofTag content with e | g
      · rfl
      · exact congrArg Except.ok (withRoot_addElement root? ⟨[], [], own?⟩ g.close)
    | _ => rfl
  · rw [withRoot, step_of_frames, step_of_frames]
    cases t with
    | startTag content | emptyTag content =>
      dsimp only
      rcases Frame.ofTag content with e | g <;> rfl
    | endTag content =>
      dsimp only
      split
      · exact congrArg Except.ok (withRoot_addElement root? ⟨fs, [], own?⟩ _)
      · rfl
    | _ => rfl

theorem finish_withRoot (root? : Option Element) (b : Builder) :
    (b.withRoot root?).finish = Element.behindRoot root? b.finish := by
  obtain ⟨frames, pending, own?⟩ := b
  rcases frames with _ | ⟨f, fs⟩
  · cases root? <;> cases own? <;> rfl
  · rfl

/-- **A root that has been found is not replaced**, and what follows it is read all the same. -/
theorem conclude_withRoot (root? : Option Element) (b : Builder) (start : Nat)
    (reading : Reading) :
    (b.withRoot root?).conclude start reading
      = Element.behindRoot root? (b.conclude start reading) := by
  obtain ⟨tokens, fault?⟩ := reading
  unfold conclude
  dsimp only
  generalize (fault?.map fun f : Fault => { f with offset := start + f.offset }) = fault?
  induction tokens generalizing b start with
  | nil =>
    rcases fault? with _ | f
    · exact finish_withRoot root? b
    · rfl
  | cons t ts ih =>
    rw [place, outcome, outcome, step_withRoot]
    rcases b.step t with e | next
    · rfl
    · exact ih next (start + t.size)

/-! ### Outside all elements

Running text may go over from one text into the next as a single token.  Outside all elements it is
dropped wherever it ends, so there the two texts can be taken apart. -/

/-- What is pending outside all elements is lost. -/
theorem conclude_of_frames_nil {b : Builder} (hb : b.frames = []) (start : Nat)
    (reading : Reading) :
    b.conclude start reading = (empty.withRoot b.root?).conclude start reading := by
  obtain ⟨frames, pending, root?⟩ := b
  obtain rfl : frames = [] := hb
  rw [withRoot, empty, Option.or_none, conclude, conclude, outcome_of_nil, outcome_of_nil]

/-- **Running text outside all elements** does nothing but put places further back. -/
theorem conclude_append_of_outside {b : Builder} {cs : List Char} (start : Nat) (rest : List Char)
    (hb : b.frames = []) (hcs : ∀ c ∈ cs, Token.isLiteral c = true) :
    b.conclude start (Reading.of (cs ++ rest))
      = b.conclude (start + width cs) (Reading.of rest) := by
  -- running text is one token with what follows it, so both sides are brought to the next markup
  have hlost : ∀ start ds, (∀ d ∈ ds, Token.isLiteral d = true) →
      b.conclude start (Reading.of (ds ++ rest.dropWhile Token.isLiteral))
        = b.conclude (start + width ds) (Reading.of (rest.dropWhile Token.isLiteral)) := by
    intro start ds hds
    by_cases hnil : ds = []
    · rw [hnil]
      rfl
    · have hwhole : (Token.text ds).IsWhole := ⟨hnil, hds⟩
      have hof : Reading.of (ds ++ rest.dropWhile Token.isLiteral)
          = (Reading.of (rest.dropWhile Token.isLiteral)).cons (.text ds) :=
        Reading.of_source hwhole fun _ _ => Token.beginsNoText_dropWhile rest
      have hstep : b.step (.text ds) = .ok b := congrArg Except.ok (addText_of_frames_nil _ hb)
      rw [hof, conclude_cons, hstep]
      rfl
  have hfirst : ∀ c ∈ rest.takeWhile Token.isLiteral, Token.isLiteral c = true :=
    List.all_eq_true.mp List.all_takeWhile
  have hboth := hlost start _ (List.forall_mem_append.mpr ⟨hcs, hfirst⟩)
  have hrest := hlost (start + width cs) _ hfirst
  rw [List.append_assoc, List.takeWhile_append_dropWhile, Text.width_append,
    ← Nat.add_assoc] at hboth
  rw [List.takeWhile_append_dropWhile] at hrest
  exact hboth.trans hrest.symm

/-- **Behind a text that leaves nothing open**, all that counts is its root and its width. -/
theorem conclude_append {cs : List Char} {b : Builder} (hfault : (Reading.of cs).fault? = none)
    (hfeed : empty.feed? (Reading.of cs).tokens = some b) (hb : b.frames = []) (more : List Char) :
    empty.conclude 0 (Reading.of (cs ++ more))
      = (empty.withRoot b.root?).conclude (width cs) (Reading.of more) := by
  obtain ⟨ts, final, hfinal, hof⟩ := Reading.exists_prepend_of hfault
  have hfront := hof []
  rw [List.append_nil, List.append_nil] at hfront
  have hsource : ts.flatMap Token.source ++ final = cs := by
    have hwhole := Reading.flatMap_source_of hfault
    rw [hfront, Reading.fault?_prepend_eq_none_iff] at hfault
    rwa [hfront, Reading.tokens_prepend, List.flatMap_append,
      Reading.flatMap_source_of hfault] at hwhole
  -- the running text that the text ends with leaves the builder behind the other tokens alone
  obtain ⟨mid, hmid, hlast⟩ : ∃ mid, empty.feed? ts = some mid ∧ mid.grow? final = some b := by
    refine Option.bind_eq_some_iff.mp ?_
    rw [← grow?_of_prepend hfront]
    exact grow?_eq_some_iff.mpr ⟨hfault, hfeed⟩
  obtain ⟨added, hadded⟩ := mid.exists_grow?_of_isLiteral hfinal
  obtain rfl : mid.addText added = b := Option.some.inj (hadded.symm.trans hlast)
  rw [frames_addText] at hb
  rw [hof, conclude_prepend hmid, conclude_append_of_outside _ _ hb hfinal, Nat.add_assoc,
    ← Text.width_append, hsource, Nat.zero_add, conclude_of_frames_nil hb, root?_addText]

end Builder

/-! ## Texts -/

namespace Element

/-- A text without errors leaves nothing open, and has the root that its builder has. -/
theorem exists_feed?_of_parse {text : String} {root? : Option Element}
    (h : parse text = behindRoot root? (.error .noRoot)) :
    (Reading.of (dropByteOrderMark text.toList)).fault? = none ∧
      ∃ b, Builder.empty.feed? (Reading.of (dropByteOrderMark text.toList)).tokens = some b ∧
        b.frames = [] ∧ b.root? = root? := by
  obtain ⟨hfault, b, hfeed, hfinish⟩ := exists_finish_of_parse rfl
    fun error position hmalformed => by
      rw [h] at hmalformed
      cases root? <;> cases hmalformed
  refine ⟨hfault, b, hfeed, ?_⟩
  rw [h, Builder.finish] at hfinish
  rcases hframes : b.frames with _ | ⟨f, fs⟩
  · rcases hroot : b.root? with _ | root <;> rw [hframes, hroot] at hfinish <;>
      cases root? <;> cases hfinish <;> exact ⟨rfl, rfl⟩
  · rw [hframes] at hfinish
    cases root? <;> cases hfinish

/-- **Two texts, one behind the other.** -/
theorem parse_append_eq {x y : String} {root? : Option Element}
    (hx : parse x = behindRoot root? (.error .noRoot)) (hmark : y.toList.head? ≠ some '\uFEFF') :
    parse (x ++ y) = behindRoot root?
      ((parse y).mapError (.further (width (dropByteOrderMark x.toList)))) := by
  have hy : dropByteOrderMark y.toList = y.toList := by
    rcases hcs : y.toList with _ | ⟨c, cs⟩
    · rfl
    · exact dropByteOrderMark_cons cs fun hc => hmark (by rw [hcs, hc]; rfl)
  have hboth : dropByteOrderMark (x ++ y).toList = dropByteOrderMark x.toList ++ y.toList := by
    rw [String.toList_append]
    by_cases hnil : x.toList = []
    · rw [hnil]
      exact hy
    · exact dropByteOrderMark_append _ hnil
  obtain ⟨hfault, b, hfeed, hframes, hroot⟩ := exists_feed?_of_parse hx
  rw [parse, parse, Builder.ofReading_eq_conclude, Builder.ofReading_eq_conclude, hboth, hy,
    Builder.conclude_append hfault hfeed hframes, hroot, Builder.conclude_withRoot]
  exact congrArg _ (Builder.conclude_add _ _ 0 _)

end Element

/-- **The first root wins, and what comes behind it is still checked.**  Behind a text that has a
root, or none and no error, another text has the errors that it has by itself, with its places
further back; and where it has none, the root is that of the first text, if there is one, or else
its own. -/
theorem parse_append {x y : String}
    (hx : (∃ root, Element.parse x = .ok root) ∨ Element.parse x = .error .noRoot)
    (hmark : y.toList.head? ≠ some '\uFEFF') :
    (∀ error position, Element.parse y = .error (.malformed error position) →
      Element.parse (x ++ y) = .error
        (.malformed error (width (dropByteOrderMark x.toList) + position))) ∧
    (∀ name, Element.parse y = .error (.unclosed name) →
      Element.parse (x ++ y) = .error (.unclosed name)) ∧
    ((∃ root, Element.parse y = .ok root) ∨ Element.parse y = .error .noRoot →
      (∀ root, Element.parse x = .ok root → Element.parse (x ++ y) = .ok root) ∧
      (Element.parse x = .error .noRoot → Element.parse (x ++ y) = Element.parse y)) := by
  obtain ⟨root?, hroot⟩ : ∃ root?,
      Element.parse x = Element.behindRoot root? (.error .noRoot) := by
    rcases hx with ⟨root, hx⟩ | hx
    · exact ⟨some root, hx⟩
    · exact ⟨none, hx⟩
  have happend := Element.parse_append_eq hroot hmark
  refine ⟨fun error position hy => ?_, fun name hy => ?_,
    fun hy => ⟨fun root hx => ?_, fun hx => ?_⟩⟩
  · rw [happend, hy]
    rfl
  · rw [happend, hy]
    rfl
  · rw [hx] at hroot
    cases root? with
    | none => cases hroot
    | some first =>
      obtain rfl := Except.ok.inj hroot
      obtain ⟨second, hy⟩ | hy := hy <;> rw [happend, hy] <;> rfl
  · rw [hx] at hroot
    cases root? with
    | none => obtain ⟨second, hy⟩ | hy := hy <;> rw [happend, hy] <;> rfl
    | some first => cases hroot

/-- A text behind a byte order mark that is complete, and ends with running text. -/
def completeFront : String :=
  "\uFEFF<a>é</a> x"

/-- What it goes on with: more running text, and a tag with an error in its attributes. -/
def faultyBehind : String :=
  "y<b/><é c='1' c='2'/></d>"

theorem parse_append_faultyBehind :
    (∃ root, Element.parse completeFront = .ok root) ∧
      faultyBehind.toList.head? ≠ some '\uFEFF' ∧
      Element.parse faultyBehind
        = .error (.malformed (.invalidAttribute (.duplicated 9 3)) 22) ∧
      Element.parse (completeFront ++ faultyBehind)
        = .error (.malformed (.invalidAttribute (.duplicated 9 3)) (11 + 22)) := by
  have hx : Element.parse completeFront = .ok ⟨"a", [], [.text "é"]⟩ := by decide +kernel
  have hmark : faultyBehind.toList.head? ≠ some '\uFEFF' := by decide
  have hy : Element.parse faultyBehind
      = .error (.malformed (.invalidAttribute (.duplicated 9 3)) 22) := by decide +kernel
  have hwidth : width (dropByteOrderMark completeFront.toList) = 11 := by decide +kernel
  have happend := (parse_append (.inl ⟨_, hx⟩) hmark).1 _ _ hy
  rw [hwidth] at happend
  exact ⟨⟨_, hx⟩, hmark, hy, happend⟩

end DocMarkdown
