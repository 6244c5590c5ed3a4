import DocMarkdown.Proofs.Tree.Growth

/-!
# Proofs/Tree/Descent — the same tree, read by recursion

A builder keeps what is open in a list.  The other way to read a tree is to go down into it: an
element is a tag, what it holds (`readContent`), and its end, and a document is one such element
with others behind it (`readDocument`).  Here nothing is open that is not also a call under way.
Both ways find the same tree in every text, and where there is none they tell the same error
(`ofReading_eq_descend`).
-/

namespace DocMarkdown

open Markup (Fault MarkupError Reading Token)

/-! ## Tokens in their places -/

/-- Tokens, each with the byte that it starts at. -/
def place (start : Nat) : List Token → List (Nat × Token)
  | [] => []
  | t :: ts => (start, t) :: place (start + t.size) ts

/-- **What an element holds**, and the tokens behind its end, of which there are less than `n`. -/
structure Content (n : Nat) where
  nodes : List Node
  rest : List (Nat × Token)
  shorter : rest.length < n

/-- The content that begins with more nodes, further to the front. -/
def Content.behind {n m : Nat} (ns : List Node) (h : n ≤ m) (content : Content n) : Content m where
  nodes := ns ++ content.nodes
  rest := content.rest
  shorter := Nat.lt_of_lt_of_le content.shorter h

/-- The error of tokens that end too early: the fault that stopped them, if one did. -/
def LoadError.ofEnd (fault? : Option Fault) (error : LoadError) : LoadError :=
  match fault? with
  | some f => .malformed (.lexical f.error) f.offset
  | none => error

/-! ## The descent

At a start tag `readContent` calls itself twice: for what the new element holds, and for what comes
behind it.  That the second call has less to read is part of what the first one gives back
(`Content.shorter`). -/

/-- **What stands between the tags of an element**, from the text that is pending there on. -/
def readContent (fault? : Option Fault) (tag pending : List Char) :
    (ts : List (Nat × Token)) → Except LoadError (Content ts.length)
  | [] => .error (.ofEnd fault? (.unclosed (String.ofList (Markup.localPart tag))))
  | (_, .text content) :: ts =>
    (readContent fault? tag (pending ++ Text.unifyLineEnds content) ts).map
      (.behind [] (Nat.le_succ _))
  | (_, .reference name) :: ts =>
    (readContent fault? tag (pending ++ Markup.referenceText name) ts).map
      (.behind [] (Nat.le_succ _))
  | (_, .cdata content) :: ts =>
    (readContent fault? tag [] ts).map (.behind (proseNodes pending ++
      [.cdata (String.ofList (Text.unifyLineEnds content))]) (Nat.le_succ _))
  | (p, .emptyTag content) :: ts =>
    match Frame.ofTag content with
    | .error e => .error (.malformed e (e.position p (.emptyTag content)))
    | .ok f => (readContent fault? tag [] ts).map (.behind (proseNodes pending ++
        [.element f.close]) (Nat.le_succ _))
  | (p, .startTag content) :: ts =>
    match Frame.ofTag content with
    | .error e => .error (.malformed e (e.position p (.startTag content)))
    | .ok f =>
      match readContent fault? f.tag [] ts with
      | .error e => .error e
      | .ok inner => (readContent fault? tag [] inner.rest).map (.behind (proseNodes pending ++
          [.element (f.extend inner.nodes).close]) (Nat.le_succ_of_le (Nat.le_of_lt inner.shorter)))
  | (p, .endTag content) :: ts =>
    if tag = Markup.endTagName content then .ok ⟨proseNodes pending, ts, Nat.lt_succ_self _⟩
    else .error (.malformed (.mismatchedEnd (String.ofList tag)
      (String.ofList (Markup.endTagName content))) p)
  | _ :: ts => (readContent fault? tag pending ts).map (.behind [] (Nat.le_succ _))
termination_by ts => ts.length
decreasing_by
  all_goals simp only [List.length_cons]
  all_goals first | omega | exact Nat.lt_succ_of_lt inner.shorter

/-- **The first element outside all others**, behind the one that has been found, if one has. -/
def readDocument (fault? : Option Fault) (root? : Option Element) :
    List (Nat × Token) → Except LoadError Element
  | [] =>
    match fault?, root? with
    | some f, _ => .error (.malformed (.lexical f.error) f.offset)
    | none, some root => .ok root
    | none, none => .error .noRoot
  | (p, .emptyTag content) :: ts =>
    match Frame.ofTag content with
    | .error e => .error (.malformed e (e.position p (.emptyTag content)))
    | .ok f => readDocument fault? (root?.or (some f.close)) ts
  | (p, .startTag content) :: ts =>
    match Frame.ofTag content with
    | .error e => .error (.malformed e (e.position p (.startTag content)))
    | .ok f =>
      match readContent fault? f.tag [] ts with
      | .error e => .error e
      | .ok inner =>
        readDocument fault? (root?.or (some (f.extend inner.nodes).close)) inner.rest
  | (p, .endTag content) :: _ =>
    .error (.malformed (.unmatchedEnd (String.ofList (Markup.endTagName content))) p)
  | _ :: ts => readDocument fault? root? ts
termination_by ts => ts.length
decreasing_by
  all_goals simp only [List.length_cons]
  all_goals first | omega | exact Nat.lt_succ_of_lt inner.shorter

/-- **The tree of what reading found**, by descent. -/
def Element.descend (reading : Reading) : Except LoadError Element :=
  readDocument reading.fault? none (place 0 reading.tokens)

/-! ## What becomes of a builder

An open element of a builder is a call under way in the descent.  The induction is over the tokens,
for any number of open elements: what the innermost call gives back is what the builder goes on with
(`resume`). -/

namespace Builder

/-- **The tree that a builder comes to**, or the error that it meets. -/
def outcome (fault? : Option Fault) (b : Builder) :
    List (Nat × Token) → Except LoadError Element
  | [] =>
    match fault? with
    | some f => .error (.malformed (.lexical f.error) f.offset)
    | none => b.finish
  | (p, t) :: ts =>
    match b.step t with
    | .error e => .error (.malformed e (e.position p t))
    | .ok next => next.outcome fault? ts

/-- Running to the end and finishing there is one way to come to it. -/
theorem outcome_place (fault? : Option Fault) (b : Builder) (start : Nat) (ts : List Token) :
    (do
      let b ← b.run start ts
      match fault? with
      | some f => throw (.malformed (.lexical f.error) f.offset)
      | none => b.finish) = b.outcome fault? (place start ts) := by
  induction ts generalizing b start with
  | nil => rfl
  | cons t ts ih =>
    rw [run, place, outcome]
    rcases b.step t with e | next
    · rfl
    · exact ih next (start + t.size)

variable (fault? : Option Fault) (fs : List Frame) (root? : Option Element)

/-- What becomes of a builder when the content of its innermost element has been read. -/
def resume {n : Nat} (f : Frame) (content : Except LoadError (Content n)) :
    Except LoadError Element :=
  match content with
  | .error e => .error e
  | .ok c => outcome fault? (addElement ⟨fs, [], root?⟩ (f.extend c.nodes).close) c.rest

/-- Nodes that come first in the content may as well be there before. -/
theorem resume_map_behind {n m : Nat} (f : Frame) (ns : List Node) (h : n ≤ m)
    (content : Except LoadError (Content n)) :
    resume fault? fs root? f (content.map (.behind ns h))
      = resume fault? fs root? (f.extend ns) content := by
  rcases content with e | c
  · rfl
  · simp only [Except.map, resume, Content.behind, Frame.extend_extend]

/-- **Within an element, a builder does what the descent does.** -/
theorem outcome_of_frames (f : Frame) (pending : List Char) (ts : List (Nat × Token)) :
    outcome fault? ⟨f :: fs, pending, root?⟩ ts
      = resume fault? fs root? f (readContent fault? f.tag pending ts) := by
  obtain ⟨n, hn⟩ : ∃ n, ts.length = n := ⟨_, rfl⟩
  induction n using Nat.strongRecOn generalizing ts f pending fs with
  | ind n ih =>
    subst hn
    rcases ts with _ | ⟨⟨p, t⟩, ts⟩
    · rw [readContent]
      cases fault? <;> rfl
    · have hts : ∀ fs f pending, outcome fault? ⟨f :: fs, pending, root?⟩ ts
          = resume fault? fs root? f (readContent fault? f.tag pending ts) :=
        fun fs f pending => ih ts.length (Nat.lt_succ_self _) fs f pending ts rfl
      rw [outcome, step_of_frames]
      cases t with
      | text content | reference content =>
        rw [readContent, resume_map_behind]
        exact hts fs f _
      | cdata content =>
        rw [readContent, resume_map_behind]
        exact hts fs _ []
      | startTag content =>
        rw [readContent]
        simp only
        rcases Frame.ofTag content with e | g
        · rfl
        · refine (hts (f.extend (proseNodes pending) :: fs) g []).trans ?_
          simp only
          rcases readContent fault? g.tag [] ts with e | inner
          · rfl
          · -- the element is complete, and its end tag leaves its parent open
            rw [resume_map_behind, ← Frame.extend_extend]
            exact ih inner.rest.length (Nat.lt_succ_of_lt inner.shorter) fs _ [] inner.rest rfl
      | emptyTag content =>
        rw [readContent]
        simp only
        rcases Frame.ofTag content with e | g
        · rfl
        · rw [resume_map_behind]
          exact hts fs _ []
      | endTag content =>
        rw [readContent]
        by_cases htag : f.tag = Markup.endTagName content
        · simp only [if_pos htag]
          rfl
        · simp only [if_neg htag]
          rfl
      | comment content | instruction content | doctype content =>
        rw [readContent, resume_map_behind]
        · exact hts fs f pending
        all_goals nofun

/-- **Outside all elements, a builder does what the descent does.** -/
theorem outcome_of_nil (pending : List Char) (ts : List (Nat × Token)) :
    outcome fault? ⟨[], pending, root?⟩ ts = readDocument fault? root? ts := by
  obtain ⟨n, hn⟩ : ∃ n, ts.length = n := ⟨_, rfl⟩
  induction n using Nat.strongRecOn generalizing ts pending root? with
  | ind n ih =>
    subst hn
    rcases ts with _ | ⟨⟨p, t⟩, ts⟩
    · cases fault? <;> cases root? <;> rw [readDocument] <;> rfl
    · have hts : ∀ pending root?, outcome fault? ⟨[], pending, root?⟩ ts
          = readDocument fault? root? ts :=
        fun pending root? => ih ts.length (Nat.lt_succ_self _) root? pending ts rfl
      rw [outcome, step_of_nil]
      cases t with
      | startTag content =>
        rw [readDocument]
        simp only
        rcases Frame.ofTag content with e | g
        · rfl
        · refine (outcome_of_frames fault? [] root? g [] ts).trans ?_
          simp only
          rcases readContent fault? g.tag [] ts with e | inner
          · rfl
          · exact ih inner.rest.length (Nat.lt_succ_of_lt inner.shorter) _ [] inner.rest rfl
      | emptyTag content =>
        rw [readDocument]
        simp only
        rcases Frame.ofTag content with e | g
        · rfl
        · exact hts [] _
      | endTag content =>
        rw [readDocument]
        rfl
      | _ =>
        rw [readDocument]
        · exact hts _ root?
        all_goals nofun

end Builder

/-- **A text has the tree that the descent finds in it**, or the error that it meets there. -/
theorem Element.ofReading_eq_descend (reading : Reading) :
    Element.ofReading reading = Element.descend reading :=
  (Builder.outcome_place reading.fault? .empty 0 reading.tokens).trans
    (Builder.outcome_of_nil reading.fault? none [] _)

end DocMarkdown
