import DocMarkdown.Proofs.Tree.Growth
import Mathlib.Data.List.SplitBy

/-!
# Proofs/Tree/Marks — a tree and its tokens, side by side

A tree, told in document order, is a sequence of **marks**: an element is opened and closed, text
and CDATA stand between.  Tokens give marks too, one group after the other: a group is a run of
running text, or a single token of another kind (`marksOfTokens`).  The root that a builder finds
has the marks of the first element among its tokens (`told_of_feed?`), so nothing of it is lost,
moved or joined.
-/

namespace DocMarkdown

open Markup (Token tagName endTagName)

/-! ## Marks -/

/-- **A mark**: an element begins or ends, or there is text or CDATA. -/
inductive Mark where
  | opening (name : String) (attributes : List (String × String))
  | closing (name : String)
  | text (content : String)
  | cdata (content : String)
deriving DecidableEq, Repr

mutual

/-- **The marks of an element**, in document order. -/
def Element.marks : Element → List Mark
  | ⟨name, attributes, children⟩ =>
    .opening name attributes :: (marksOfNodes children ++ [.closing name])

/-- The marks of a node. -/
def Node.marks : Node → List Mark
  | .element e => e.marks
  | .text content => [.text content]
  | .cdata content => [.cdata content]

/-- The marks of nodes, one after the other. -/
def marksOfNodes : List Node → List Mark
  | [] => []
  | n :: ns => n.marks ++ marksOfNodes ns

end

theorem marksOfNodes_append (ns ms : List Node) :
    marksOfNodes (ns ++ ms) = marksOfNodes ns ++ marksOfNodes ms := by
  induction ns with
  | nil => rfl
  | cons n ns ih =>
    rw [List.cons_append, marksOfNodes, marksOfNodes, ih, List.append_assoc]

@[simp] theorem marksOfNodes_singleton (n : Node) : marksOfNodes [n] = n.marks :=
  List.append_nil n.marks

/-! ## Marks of tokens

Silent tokens are left out before the others are grouped.  So a comment within running text does not
part it. -/

namespace Markup

/-- The name without its prefix, as elements have it. -/
def localName (tag : List Char) : String :=
  String.ofList (localPart tag)

namespace Token

/-- What a token of running text stands for. -/
def prose? : Token → Option (List Char)
  | text content => some (Text.unifyLineEnds content)
  | reference name => some (referenceText name)
  | _ => none

/-- The token is running text. -/
def isProse (t : Token) : Bool :=
  t.prose?.isSome

/-- The token is a note to the reader, and the tree has nothing of it. -/
def isSilent : Token → Bool
  | comment _ => true
  | instruction _ => true
  | doctype _ => true
  | _ => false

/-- The marks of a token that stands for itself; an empty tag opens and closes. -/
def marks : Token → List Mark
  | startTag content => [.opening (localName (tagName content)) (plainAttributes content)]
  | emptyTag content =>
    [.opening (localName (tagName content)) (plainAttributes content),
      .closing (localName (tagName content))]
  | endTag content => [.closing (localName (endTagName content))]
  | cdata content => [.cdata (String.ofList (Text.unifyLineEnds content))]
  | _ => []

end Token

/-- The tokens stand in one group, side by side. -/
def Token.joins (s t : Token) : Bool :=
  s.isProse && t.isProse

/-- The marks of a run of running text: one text, or nothing where it is all blank. -/
def proseMarks (ts : List Token) : List Mark :=
  marksOfNodes (proseNodes (ts.flatMap fun t => t.prose?.getD []))

/-- The marks of a group: a run of running text gives one text, another token stands for itself. -/
def groupMarks (ts : List Token) : List Mark :=
  if ts.all Token.isProse then proseMarks ts else ts.flatMap Token.marks

/-- **The marks of tokens.**  What is silent is left out; running text that then stands side by side
is one group. -/
def marksOfTokens (ts : List Token) : List Mark :=
  ((ts.filter (!·.isSilent)).splitBy Token.joins).flatMap groupMarks

/-- The elements that are open behind a token, given how many were. -/
def Token.depth (n : Nat) : Token → Nat
  | startTag _ => n + 1
  | endTag _ => n - 1
  | _ => n

/-- The tokens up to the end of the outermost of the open elements. -/
def throughClose : Nat → List Token → List Token
  | 0, _ => []
  | _ + 1, [] => []
  | n + 1, t :: ts => t :: throughClose (t.depth (n + 1)) ts

/-- **The tokens of the first element**, from its tag to its end. -/
def firstElement : List Token → List Token
  | [] => []
  | .startTag content :: ts => .startTag content :: throughClose 1 ts
  | .emptyTag content :: _ => [.emptyTag content]
  | _ :: ts => firstElement ts

/-! ## Marks token by token

`marksOfTokens` speaks of all tokens at once, and a builder takes one after the other.  `marksAfter`
has the same marks from the front, with the pending text of the builder for a parameter. -/

/-- The marks of tokens that stand behind pending text. -/
def marksAfter (pending : List Char) : List Token → List Mark
  | [] => marksOfNodes (proseNodes pending)
  | t :: ts =>
    match t.prose? with
    | some cs => marksAfter (pending ++ cs) ts
    | none =>
      if t.isSilent then marksAfter pending ts
      else marksOfNodes (proseNodes pending) ++ (t.marks ++ marksAfter [] ts)

theorem Token.not_isSilent_of_isProse {t : Token} (h : t.isProse = true) :
    t.isSilent = false := by
  cases t <;> first | rfl | contradiction

theorem filter_of_isProse {ps : List Token} (h : ∀ p ∈ ps, p.isProse = true) :
    ps.filter (!·.isSilent) = ps := by
  refine List.filter_eq_self.mpr ?_
  intro p hp
  rw [Token.not_isSilent_of_isProse (h p hp)]
  rfl

/-- A run of running text is one group, if there is anything of it. -/
theorem flatMap_groupMarks_of_isProse {ps : List Token} (h : ∀ p ∈ ps, p.isProse = true) :
    (ps.splitBy Token.joins).flatMap groupMarks = proseMarks ps := by
  by_cases hnil : ps = []
  · rw [hnil]
    rfl
  · have hchain : ps.IsChain fun s t => Token.joins s t :=
      (List.pairwise_of_forall_mem_list fun s hs t ht => by
        simp [Token.joins, h s hs, h t ht]).isChain
    rw [List.splitBy_of_isChain hnil hchain, List.flatMap_singleton, groupMarks,
      if_pos (List.all_eq_true.mpr h)]

/-- A token that is neither running text nor silent ends a group and is one. -/
theorem marksOfTokens_append_cons {ps : List Token} {t : Token} (ts : List Token)
    (hps : ∀ p ∈ ps, p.isProse = true) (ht : t.isProse = false) (hs : t.isSilent = false) :
    marksOfTokens (ps ++ t :: ts) = proseMarks ps ++ (t.marks ++ marksOfTokens ts) := by
  have hfilter : (ps ++ t :: ts).filter (!·.isSilent)
      = ps ++ ([t] ++ ts.filter (!·.isSilent)) := by
    rw [List.filter_append, filter_of_isProse hps, List.filter_cons_of_pos (by rw [hs]; rfl),
      List.singleton_append]
  have hgroup : groupMarks [t] = t.marks := by
    rw [groupMarks, List.all_cons, ht, Bool.false_and, if_neg Bool.false_ne_true,
      List.flatMap_singleton]
  have hsingle : [t].splitBy Token.joins = [[t]] := rfl
  rw [marksOfTokens, hfilter, List.splitBy_append (by simp [Token.joins, ht]),
    List.splitBy_append (by simp [Token.joins, ht]), hsingle, List.flatMap_append,
    List.flatMap_append, List.flatMap_singleton, flatMap_groupMarks_of_isProse hps, hgroup]
  rfl

/-- A silent token parts nothing. -/
theorem marksOfTokens_append_cons_of_isSilent {t : Token} (ps ts : List Token)
    (hs : t.isSilent = true) : marksOfTokens (ps ++ t :: ts) = marksOfTokens (ps ++ ts) := by
  rw [marksOfTokens, marksOfTokens, List.filter_append, List.filter_append,
    List.filter_cons_of_neg (by simp [hs])]

/-- **The marks of tokens, taken one by one.** -/
theorem marksOfTokens_append (ps ts : List Token)
    (hps : ∀ p ∈ ps, p.isProse = true) :
    marksOfTokens (ps ++ ts) = marksAfter (ps.flatMap fun t => t.prose?.getD []) ts := by
  induction ts generalizing ps with
  | nil =>
    rw [List.append_nil, marksAfter, marksOfTokens, filter_of_isProse hps,
      flatMap_groupMarks_of_isProse hps]
    rfl
  | cons t ts ih =>
    rw [marksAfter]
    cases hprose : t.prose? with
    | some cs =>
      have hps' : ∀ p ∈ ps ++ [t], p.isProse = true := by
        intro p hp
        rcases List.mem_append.mp hp with hp | hp
        · exact hps p hp
        · rw [List.mem_singleton.mp hp, Token.isProse, hprose]
          rfl
      rw [List.append_cons, ih (ps ++ [t]) hps']
      simp [hprose]
    | none =>
      have ht : t.isProse = false := by rw [Token.isProse, hprose]; rfl
      rcases hs : t.isSilent with _ | _
      · have hnone : marksOfTokens ts = marksAfter [] ts := ih [] (by simp)
        rw [if_neg Bool.false_ne_true, marksOfTokens_append_cons ts hps ht hs, hnone]
        rfl
      · rw [if_pos rfl, ← ih ps hps, marksOfTokens_append_cons_of_isSilent ps ts hs]

theorem marksOfTokens_eq (ts : List Token) : marksOfTokens ts = marksAfter [] ts :=
  marksOfTokens_append [] ts (by simp)

-- a comment does not part two pieces of text, and a CDATA section does
example : marksOfTokens [.text ['x'], .comment ['y'], .reference ['l', 't'], .cdata ['z'],
    .text ['x']] = [.text "x<", .cdata "z", .text "x"] := by
  decide

end Markup

/-! ## Marks of a builder

`told` is what no step changes: the marks that a builder holds, and those that are to come.  Before
the first token it is the marks of the first element, and behind the last it is those of the root.
-/

open Markup (marksAfter marksOfTokens throughClose firstElement plainAttributes)

namespace Frame

/-- What is made of a tag is made of its name and its plain attributes. -/
theorem eq_of_map_ofTag {α : Type} {content : List Char} {make : Frame → α} {a : α}
    (h : (ofTag content).map make = .ok a) :
    make ⟨tagName content, plainAttributes content, []⟩ = a := by
  rcases hf : ofTag content with e | f
  · rw [hf] at h
    contradiction
  · rw [hf] at h
    rw [← eq_of_ofTag hf]
    exact Except.ok.inj h

/-- The marks of an open element, up to its open end. -/
def marks (f : Frame) : List Mark :=
  .opening f.name f.attributes :: marksOfNodes f.children.reverse

theorem marks_close (f : Frame) : f.close.marks = f.marks ++ [.closing f.name] := rfl

@[simp] theorem marks_extend (f : Frame) (ns : List Node) :
    (f.extend ns).marks = f.marks ++ marksOfNodes ns := by
  rw [marks, extend, List.reverse_append, List.reverse_reverse, marksOfNodes_append]
  rfl

end Frame

/-- The marks of all that is open, the innermost element last. -/
def marksOfFrames (fs : List Frame) : List Mark :=
  fs.reverse.flatMap Frame.marks

theorem marksOfFrames_cons (f : Frame) (fs : List Frame) :
    marksOfFrames (f :: fs) = marksOfFrames fs ++ f.marks := by
  rw [marksOfFrames, List.reverse_cons, List.flatMap_append, List.flatMap_singleton]
  rfl

theorem marksOfFrames_singleton (f : Frame) : marksOfFrames [f] = f.marks :=
  List.append_nil f.marks

theorem marksOfFrames_extend (f : Frame) (fs : List Frame) (ns : List Node) :
    marksOfFrames (f.extend ns :: fs) = marksOfFrames (f :: fs) ++ marksOfNodes ns := by
  rw [marksOfFrames_cons, marksOfFrames_cons, Frame.marks_extend, List.append_assoc]

namespace Builder

/-- **The marks that the root has, or will have** when certain tokens have come. -/
def told : Builder → List Token → List Mark
  | ⟨_, _, some root⟩, _ => root.marks
  | ⟨[], _, none⟩, ts => marksOfTokens (firstElement ts)
  | ⟨f :: fs, pending, none⟩, ts =>
    marksOfFrames (f :: fs) ++ marksAfter pending (throughClose (fs.length + 1) ts)

/-- The root stays what it is. -/
theorem root?_of_step {frames : List Frame} {pending : List Char} {root : Element} {t : Token}
    {next : Builder} (h : step ⟨frames, pending, some root⟩ t = .ok next) :
    next.root? = some root := by
  rcases frames with _ | ⟨f, fs⟩
  · rw [step_of_nil] at h
    cases t with
    | startTag content | emptyTag content =>
      obtain rfl := Frame.eq_of_map_ofTag h
      rfl
    | _ => cases h <;> rfl
  · rw [step_of_frames] at h
    cases t with
    | startTag content | emptyTag content =>
      obtain rfl := Frame.eq_of_map_ofTag h
      rfl
    | endTag content =>
      simp only at h
      split at h
      · obtain rfl := Except.ok.inj h
        rcases fs with _ | ⟨g, gs⟩ <;> rfl
      · contradiction
    | _ => cases h; rfl

/-- **A complete element is told to its end**, and then what its parent holds, if it has one. -/
theorem told_addElement_close (f : Frame) (fs : List Frame) (ns : List Node) (ts : List Token) :
    (addElement ⟨fs, [], none⟩ (f.extend ns).close).told ts = marksOfFrames (f :: fs) ++
      (marksOfNodes ns ++ .closing f.name :: marksAfter [] (throughClose fs.length ts)) := by
  have hclose : (f.extend ns).close.marks = f.marks ++ (marksOfNodes ns ++ [.closing f.name]) := by
    rw [Frame.marks_close, Frame.marks_extend, List.append_assoc]
    rfl
  rcases fs with _ | ⟨g, gs⟩
  · -- the root is complete, and no more tokens belong to it
    refine hclose.trans ?_
    rw [List.length_nil, throughClose, marksOfFrames_singleton]
    rfl
  · rw [addElement]
    simp only [told, Frame.push_eq_extend, marksOfFrames_extend, marksOfFrames_cons f,
      marksOfNodes_singleton, Node.marks, hclose, List.append_assoc]
    rfl

/-- Outside all elements, a tag begins what is told. -/
theorem told_of_step_outside {pending : List Char} {t : Token} {next : Builder}
    (h : step ⟨[], pending, none⟩ t = .ok next) (ts : List Token) :
    next.told ts = told ⟨[], pending, none⟩ (t :: ts) := by
  rw [step_of_nil] at h
  cases t with
  | startTag content =>
    obtain rfl := Frame.eq_of_map_ofTag h
    exact (Markup.marksOfTokens_eq (.startTag content :: throughClose 1 ts)).symm
  | emptyTag content =>
    obtain rfl := Frame.eq_of_map_ofTag h
    rfl
  | endTag content => contradiction
  | _ => cases h; rfl

/-- Within an element, a token adds its marks, behind the text that it settles. -/
theorem told_of_step_within {f : Frame} {fs : List Frame} {pending : List Char} {t : Token}
    {next : Builder} (h : step ⟨f :: fs, pending, none⟩ t = .ok next) (ts : List Token) :
    next.told ts = told ⟨f :: fs, pending, none⟩ (t :: ts) := by
  have hsettled : marksOfFrames (f.extend (proseNodes pending) :: fs)
      = marksOfFrames (f :: fs) ++ marksOfNodes (proseNodes pending) :=
    marksOfFrames_extend f fs _
  rw [step_of_frames] at h
  cases t with
  | cdata content =>
    cases h
    simp only [told, marksOfFrames_extend, marksOfNodes_append, marksOfNodes_singleton,
      List.append_assoc]
    rfl
  | startTag content =>
    obtain rfl := Frame.eq_of_map_ofTag h
    simp only [told, marksOfFrames_cons _ (_ :: _), hsettled, List.append_assoc]
    rfl
  | emptyTag content =>
    obtain rfl := Frame.eq_of_map_ofTag h
    simp only [told, marksOfFrames_extend, marksOfNodes_append, marksOfNodes_singleton,
      List.append_assoc]
    rfl
  | endTag content =>
    simp only at h
    split at h
    · next htag =>
      have hname : f.name = Markup.localName (endTagName content) := by
        rw [← htag]
        rfl
      obtain rfl := Except.ok.inj h
      rw [told_addElement_close, hname]
      rfl
    · contradiction
  | _ => cases h; rfl

/-- **What is told does not change with a step.** -/
theorem told_of_step {b next : Builder} {t : Token} (h : b.step t = .ok next) (ts : List Token) :
    next.told ts = b.told (t :: ts) := by
  obtain ⟨frames, pending, root?⟩ := b
  rcases root? with _ | root
  · rcases frames with _ | ⟨f, fs⟩
    · exact told_of_step_outside h ts
    · exact told_of_step_within h ts
  · have hroot := root?_of_step h
    obtain ⟨frames', pending', root'⟩ := next
    obtain rfl : root' = some root := hroot
    rw [told, told]

/-- **What is told does not change with a run.** -/
theorem told_of_feed? {b next : Builder} {ts : List Token} (h : b.feed? ts = some next) :
    next.told [] = b.told ts := by
  induction ts generalizing b with
  | nil => rw [Option.some.inj h]
  | cons t ts ih =>
    rw [feed?] at h
    rcases hstep : b.step t with e | mid
    · simp [hstep, Except.toOption] at h
    · rw [hstep] at h
      rw [ih h, told_of_step hstep]

end Builder

end DocMarkdown
