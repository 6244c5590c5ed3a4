import DocMarkdown.Text.Blank
import DocMarkdown.Text.LineEnd

/-!
# Proofs/Text/LineEnd — line ends, piece by piece and in other forms

A text that is taken apart has the line ends of its pieces, unless a pair is torn in two
(`unifyLineEnds_append`).  What is no line end stays where it stands
(`infix_of_infix_unifyLineEnds`), and a line end is blank in each of its forms, so a text is blank
when its lines are (`all_isBlank_unifyLineEnds`).

A text can also be written with other line ends (`withLineEnd`).  What looks for characters of other
kinds finds them at the same places then (`takeWhile_withLineEnd`), and one line end for all
gives the text back (`unifyLineEnds_withLineEnd`).

The line ends can be read in one pass as well (`scanLineEnds`), which is the same
(`unifyLineEnds_eq_scanLineEnds`).  A torn pair counts as two line ends, so that its pieces have one
LF more than the text (`oneFeedMore_iff_torn`).  `unifyLineEnds_of_scan` puts this together.
-/

namespace DocMarkdown.Text

/-! ## Pieces of a text

Pairs are joined in one pass, and what is left of CR is written as LF in another.  Only the first
pass looks at two characters at once, so only a torn pair makes a difference. -/

/-- **A pair is torn** between two pieces of a text. -/
def Torn (left right : List Char) : Prop :=
  left.getLast? = some '\r' ∧ right.head? = some '\n'

theorem Torn.cons {left right : List Char} (c : Char) (h : Torn left right) :
    Torn (c :: left) right :=
  ⟨by rw [List.getLast?_cons, h.1]; rfl, h.2⟩

/-- A character that begins no pair stays as it is. -/
theorem joinPairs_cons {c : Char} {cs : List Char} (h : ¬(c = '\r' ∧ cs.head? = some '\n')) :
    joinPairs (c :: cs) = c :: joinPairs cs := by
  rw [joinPairs]
  rintro ds rfl rfl
  exact h ⟨rfl, rfl⟩

theorem joinPairs_append {left right : List Char} (h : ¬ Torn left right) :
    joinPairs (left ++ right) = joinPairs left ++ joinPairs right := by
  fun_induction joinPairs left with
  | case1 cs ih =>
    have hcs := ih fun htorn => h ((htorn.cons '\n').cons '\r')
    rw [List.cons_append, List.cons_append, joinPairs, hcs, List.cons_append]
  | case2 c cs hpair ih =>
    rw [List.cons_append, joinPairs_cons, ih fun htorn => h (htorn.cons c), List.cons_append]
    rintro ⟨rfl, hhead⟩
    rcases cs with _ | ⟨d, ds⟩
    · exact h ⟨rfl, hhead⟩
    · obtain rfl : d = '\n' := Option.some.inj hhead
      exact hpair ds rfl rfl
  | case3 => rfl

/-- **The line ends of a text are those of its pieces**, unless a pair is torn. -/
theorem unifyLineEnds_append {left right : List Char} (h : ¬ Torn left right) :
    unifyLineEnds (left ++ right) = unifyLineEnds left ++ unifyLineEnds right := by
  rw [unifyLineEnds, joinPairs_append h, List.map_append]
  rfl

/-- A CR that no LF follows is a line end of its own. -/
theorem unifyLineEnds_lone {cs : List Char} (h : cs.head? ≠ some '\n') :
    unifyLineEnds ('\r' :: cs) = '\n' :: unifyLineEnds cs := by
  have hjoin : joinPairs ('\r' :: cs) = '\r' :: joinPairs cs :=
    joinPairs_cons fun hpair => h hpair.2
  rw [unifyLineEnds, hjoin, List.map_cons]
  rfl

/-! ## What is no line end -/

/-- What a text begins with begins it in each form of its line ends, if it has none itself. -/
theorem prefix_of_prefix_unifyLineEnds {mark cs : List Char} (hmark : '\n' ∉ mark)
    (h : mark <+: unifyLineEnds cs) : mark <+: cs := by
  rw [unifyLineEnds] at h
  fun_induction joinPairs cs generalizing mark with
  | case1 cs ih =>
    rcases mark with _ | ⟨m, mark⟩
    · exact List.nil_prefix
    · obtain ⟨rfl, -⟩ := List.cons_prefix_cons.mp h
      exact absurd List.mem_cons_self hmark
  | case2 c cs hpair ih =>
    rcases mark with _ | ⟨m, mark⟩
    · exact List.nil_prefix
    · obtain ⟨rfl, hrest⟩ := List.cons_prefix_cons.mp h
      obtain ⟨hm, hmark⟩ := not_or.mp (mt List.mem_cons.mpr hmark)
      have hc : feedLine c = c := by
        rw [feedLine, if_neg]
        rintro rfl
        exact hm rfl
      rw [hc]
      exact List.cons_prefix_cons.mpr ⟨rfl, ih hmark hrest⟩
  | case3 => exact h

/-- **One line end for all brings no mark about**: it has been in the text before. -/
theorem infix_of_infix_unifyLineEnds {mark cs : List Char} (hmark : '\n' ∉ mark)
    (h : mark <:+: unifyLineEnds cs) : mark <:+: cs := by
  rw [unifyLineEnds] at h
  fun_induction joinPairs cs with
  | case1 cs ih =>
    rcases List.infix_cons_iff.mp h with hfirst | hrest
    · have hprefix : mark <+: unifyLineEnds ('\r' :: '\n' :: cs) := hfirst
      exact (prefix_of_prefix_unifyLineEnds hmark hprefix).isInfix
    · exact (ih hrest).trans (List.suffix_append ['\r', '\n'] cs).isInfix
  | case2 c cs hpair ih =>
    rcases List.infix_cons_iff.mp h with hfirst | hrest
    · have hprefix : mark <+: unifyLineEnds (c :: cs) := by
        rw [unifyLineEnds, joinPairs]
        · exact hfirst
        · exact hpair
      exact (prefix_of_prefix_unifyLineEnds hmark hprefix).isInfix
    · exact (ih hrest).trans (List.suffix_cons c cs).isInfix
  | case3 => exact h

/-! ## Blank texts -/

theorem isBlank_feedLine (c : Char) : isBlank (feedLine c) = isBlank c := by
  unfold feedLine
  split
  · next h => rw [h]; rfl
  · rfl

theorem all_isBlank_joinPairs (cs : List Char) :
    (joinPairs cs).all isBlank = cs.all isBlank := by
  fun_induction joinPairs cs with
  | case1 cs ih => simp only [List.all_cons, ih]; rfl
  | case2 c cs hpair ih => rw [List.all_cons, List.all_cons, ih]
  | case3 => rfl

/-- **A text is blank in whichever way its lines end.** -/
theorem all_isBlank_unifyLineEnds (cs : List Char) :
    (unifyLineEnds cs).all isBlank = cs.all isBlank := by
  have hfeed : isBlank ∘ feedLine = isBlank := funext isBlank_feedLine
  rw [unifyLineEnds, List.all_map, hfeed, all_isBlank_joinPairs]

/-! ## Other line ends

The other forms are given to a text that has LF for all its line ends, and no CR.  From each form
that text can be told again. -/

/-- **A form of line ends.** -/
inductive LineEnd where
  /-- LF, as in a text whose line ends are one. -/
  | feed
  /-- CR LF. -/
  | pair
  /-- A lone CR. -/
  | lone

/-- The characters of a line end. -/
def LineEnd.chars : LineEnd → List Char
  | feed => ['\n']
  | pair => ['\r', '\n']
  | lone => ['\r']

/-- **A text with every LF as another line end.** -/
def withLineEnd (e : LineEnd) (cs : List Char) : List Char :=
  cs.flatMap fun c => if c = '\n' then e.chars else [c]

/-- The character is part of a line end. -/
def isLineEnd (c : Char) : Bool :=
  c == '\r' || c == '\n'

/-- **A text of one line**: no part of a line end is in it. -/
def OneLine (cs : List Char) : Prop :=
  ∀ c ∈ cs, isLineEnd c = false

theorem oneLine_of_all {cs : List Char} (h : (cs.all (!isLineEnd ·)) = true) : OneLine cs :=
  fun c hc => (Bool.not_eq_true' _).mp (List.all_eq_true.mp h c hc)

theorem ne_of_not_isLineEnd {c : Char} (h : isLineEnd c = false) : c ≠ '\r' ∧ c ≠ '\n' := by
  simpa [isLineEnd] using h

section WithLineEnd

variable (e : LineEnd) (cs ds : List Char)

@[simp] theorem withLineEnd_nil : withLineEnd e [] = [] := rfl

@[simp] theorem withLineEnd_feed : withLineEnd e ('\n' :: cs) = e.chars ++ withLineEnd e cs := rfl

variable {c : Char}

theorem withLineEnd_cons (h : c ≠ '\n') : withLineEnd e (c :: cs) = c :: withLineEnd e cs := by
  rw [withLineEnd, List.flatMap_cons, if_neg h]
  rfl

theorem withLineEnd_eq_nil_iff {cs : List Char} : withLineEnd e cs = [] ↔ cs = [] := by
  rcases cs with _ | ⟨c, cs⟩
  · simp
  · by_cases hfeed : c = '\n'
    · subst hfeed
      cases e <;> simp [LineEnd.chars]
    · simp [withLineEnd_cons e cs hfeed]

theorem withLineEnd_append :
    withLineEnd e (cs ++ ds) = withLineEnd e cs ++ withLineEnd e ds :=
  List.flatMap_append

theorem withLineEnd_of_not_mem {cs : List Char} (h : '\n' ∉ cs) : withLineEnd e cs = cs := by
  induction cs with
  | nil => rfl
  | cons c cs ih =>
    obtain ⟨hc, hcs⟩ := not_or.mp (mt List.mem_cons.mpr h)
    rw [withLineEnd_cons e cs (Ne.symm hc), ih hcs]

/-- A text of one line has no line end to change. -/
theorem withLineEnd_of_oneLine {cs : List Char} (h : OneLine cs) : withLineEnd e cs = cs :=
  withLineEnd_of_not_mem e fun hmem => absurd (h _ hmem) (by decide)

theorem feed_not_mem_withLineEnd_lone : '\n' ∉ withLineEnd .lone cs := by
  simp only [withLineEnd, List.mem_flatMap, not_exists, not_and]
  intro c _ h
  split at h
  · exact absurd h (by decide)
  · next hc => exact hc (List.mem_singleton.mp h).symm

/-- **One line end for all gives the text back.** -/
theorem unifyLineEnds_withLineEnd {cs : List Char} (h : '\r' ∉ cs) :
    unifyLineEnds (withLineEnd e cs) = cs := by
  induction cs with
  | nil => rfl
  | cons c cs ih =>
    obtain ⟨hc, hcs⟩ := not_or.mp (mt List.mem_cons.mpr h)
    by_cases hfeed : c = '\n'
    · subst hfeed
      cases e with
      | feed => exact (unifyLineEnds_cons _ (by decide)).trans (congrArg _ (ih hcs))
      | pair => exact congrArg ('\n' :: ·) (ih hcs)
      | lone =>
        -- what comes behind the CR does not make a pair of it
        have hhead : (withLineEnd .lone cs).head? ≠ some '\n' := fun h =>
          feed_not_mem_withLineEnd_lone cs (List.mem_of_mem_head? h)
        rw [withLineEnd_feed, LineEnd.chars, List.singleton_append, unifyLineEnds_lone hhead,
          ih hcs]
    · rw [withLineEnd_cons e cs hfeed, unifyLineEnds_cons _ (Ne.symm hc), ih hcs]

/-! ## Looking for other characters

A test that takes CR and LF for the same goes on over both characters of a pair, or stops at the
first, so it stops in the same place in each form. -/

theorem takeWhile_withLineEnd {p : Char → Bool} (hp : p '\r' = p '\n') :
    (withLineEnd e cs).takeWhile p = withLineEnd e (cs.takeWhile p) := by
  induction cs with
  | nil => rfl
  | cons c cs ih =>
    by_cases hfeed : c = '\n'
    · subst hfeed
      cases hn : p '\n' <;> cases e <;> simp_all [LineEnd.chars]
    · rw [withLineEnd_cons e cs hfeed, List.takeWhile_cons, List.takeWhile_cons, ih]
      split
      · rw [withLineEnd_cons e _ hfeed]
      · rfl

theorem dropWhile_withLineEnd {p : Char → Bool} (hp : p '\r' = p '\n') :
    (withLineEnd e cs).dropWhile p = withLineEnd e (cs.dropWhile p) := by
  induction cs with
  | nil => rfl
  | cons c cs ih =>
    by_cases hfeed : c = '\n'
    · subst hfeed
      cases hn : p '\n' <;> cases e <;> simp_all [LineEnd.chars]
    · rw [withLineEnd_cons e cs hfeed, List.dropWhile_cons, List.dropWhile_cons, ih]
      split
      · rfl
      · rw [withLineEnd_cons e _ hfeed]

theorem all_withLineEnd {p : Char → Bool} (hp : p '\r' = p '\n') :
    (withLineEnd e cs).all p = cs.all p := by
  induction cs with
  | nil => rfl
  | cons c cs ih =>
    by_cases hfeed : c = '\n'
    · subst hfeed
      cases e <;> simp [LineEnd.chars, hp, ih]
    · rw [withLineEnd_cons e cs hfeed, List.all_cons, List.all_cons, ih]

end WithLineEnd

/-! ## One pass -/

/-- **The line ends of a text in one pass**, from left to right: each CR LF and each CR that no LF
follows is written as one LF, and any other character as it is. -/
def scanLineEnds : List Char → List Char
  | '\r' :: '\n' :: cs => '\n' :: scanLineEnds cs
  | '\r' :: cs => '\n' :: scanLineEnds cs
  | c :: cs => c :: scanLineEnds cs
  | [] => []

/-- **Both passes are one.** -/
theorem unifyLineEnds_eq_scanLineEnds (cs : List Char) : unifyLineEnds cs = scanLineEnds cs := by
  fun_induction scanLineEnds cs with
  | case1 cs ih => exact congrArg ('\n' :: ·) ih
  | case2 cs hpair ih =>
    have hhead : cs.head? ≠ some '\n' := fun h =>
      (List.head?_eq_some_iff.mp h).elim hpair
    rw [unifyLineEnds_lone hhead, ih]
  | case3 c cs _ hreturn ih => rw [unifyLineEnds_cons cs hreturn, ih]
  | case4 => rfl

theorem unifyLineEnds_unifyLineEnds (cs : List Char) :
    unifyLineEnds (unifyLineEnds cs) = unifyLineEnds cs :=
  unifyLineEnds_of_not_mem (carriageReturn_not_mem_unifyLineEnds cs)

/-! ## Torn pairs

Apart, the CR and the LF of a torn pair are a line end each; together they are one.  A text is never
itself with one LF more, so of the two cases just one holds. -/

/-- **One LF more**: the longer text without it is the other one. -/
def OneFeedMore (text more : List Char) : Prop :=
  ∃ front rest, text = front ++ rest ∧ more = front ++ '\n' :: rest

theorem OneFeedMore.ne {text more : List Char} (h : OneFeedMore text more) : text ≠ more := by
  obtain ⟨front, rest, rfl, rfl⟩ := h
  intro hsame
  exact List.cons_ne_self '\n' rest (List.append_cancel_left hsame).symm

section Torn

variable {left right : List Char}

theorem not_torn_return (left rest : List Char) : ¬ Torn left ('\r' :: rest) :=
  fun h => absurd (Option.some.inj h.2) (by decide)

/-- **A torn pair is two line ends.** -/
theorem Torn.oneFeedMore (h : Torn left right) :
    OneFeedMore (unifyLineEnds (left ++ right)) (unifyLineEnds left ++ unifyLineEnds right) := by
  obtain ⟨front, rfl⟩ := List.getLast?_eq_some_iff.mp h.1
  obtain ⟨rest, rfl⟩ := List.head?_eq_some_iff.mp h.2
  -- the text may be parted in front of the CR instead
  have hleft : unifyLineEnds (front ++ ['\r']) = unifyLineEnds front ++ ['\n'] :=
    unifyLineEnds_append (not_torn_return front [])
  have hpair : unifyLineEnds (front ++ '\r' :: '\n' :: rest)
      = unifyLineEnds front ++ '\n' :: unifyLineEnds rest :=
    unifyLineEnds_append (not_torn_return front ('\n' :: rest))
  refine ⟨unifyLineEnds (front ++ ['\r']), unifyLineEnds rest, ?_, ?_⟩
  · rw [List.append_assoc, List.singleton_append, hpair, hleft, List.append_assoc,
      List.singleton_append]
  · rw [unifyLineEnds_cons rest (by decide)]

/-- **The line ends of a text are those of its pieces just where no pair is torn.** -/
theorem unifyLineEnds_append_eq_iff :
    unifyLineEnds (left ++ right) = unifyLineEnds left ++ unifyLineEnds right ↔
      ¬ Torn left right :=
  ⟨fun hsame htorn => htorn.oneFeedMore.ne hsame, unifyLineEnds_append⟩

theorem oneFeedMore_iff_torn :
    OneFeedMore (unifyLineEnds (left ++ right)) (unifyLineEnds left ++ unifyLineEnds right) ↔
      Torn left right :=
  ⟨fun hmore => Classical.not_not.mp (mt unifyLineEnds_append hmore.ne), Torn.oneFeedMore⟩

end Torn

/-- **What one line end for all is.**  Both passes come to a single one that writes each CR LF and
each CR without an LF behind it as one LF.  No CR is left, so a second time changes nothing.  A text
can be taken apart first at any place but within a pair: there its pieces have one LF more, and no
other difference. -/
theorem unifyLineEnds_of_scan (cs left right : List Char) :
    unifyLineEnds cs = scanLineEnds cs ∧
      '\r' ∉ unifyLineEnds cs ∧
      unifyLineEnds (unifyLineEnds cs) = unifyLineEnds cs ∧
      (unifyLineEnds (left ++ right) = unifyLineEnds left ++ unifyLineEnds right ↔
        ¬ Torn left right) ∧
      (OneFeedMore (unifyLineEnds (left ++ right)) (unifyLineEnds left ++ unifyLineEnds right) ↔
        Torn left right) :=
  ⟨unifyLineEnds_eq_scanLineEnds cs, carriageReturn_not_mem_unifyLineEnds cs,
    unifyLineEnds_unifyLineEnds cs, unifyLineEnds_append_eq_iff, oneFeedMore_iff_torn⟩

-- A lone CR stands before a pair, and the pair is torn.
example : unifyLineEnds (['a', '\r', '\r'] ++ ['\n', 'b']) = ['a', '\n', '\n', 'b'] ∧
    unifyLineEnds ['a', '\r', '\r'] ++ unifyLineEnds ['\n', 'b']
      = ['a', '\n', '\n', '\n', 'b'] := by
  decide

end DocMarkdown.Text
