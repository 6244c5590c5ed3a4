import DocMarkdown.Text.Blank
import Mathlib.Data.List.Induction

/-!
# Proofs/Text/Blank — what a collapse keeps of a text

A text is made of **words** with blanks between them.  A collapse keeps the words, and of the blanks
around each of them only that they are there: it can be told from the words and the two ends of the
text (`collapseAfter_eq`), so it is the only text without another blank than the space and without
two spaces side by side that agrees with the text so far (`isCollapse_iff`).  Collapsed piece by
piece, a text has one space too many where a run of blanks is parted
(`collapse_append_eq_iff`).
-/

namespace DocMarkdown.Text

/-! ## Words

A text is a word, a blank, and another text, or a last word: either may be empty, so that every
blank is taken by itself (`runs_induction`). -/

/-- **The words of a text**: its maximal runs without a blank. -/
def words (cs : List Char) : List (List Char) :=
  (cs.splitOnP isBlank).filter (!·.isEmpty)

/-- The text begins with a blank. -/
def startsBlank (cs : List Char) : Bool :=
  cs.head?.any isBlank

/-- The text ends with a blank. -/
def endsBlank (cs : List Char) : Bool :=
  cs.getLast?.any isBlank

/-- A piece of a text without a blank. -/
def Solid (cs : List Char) : Prop :=
  ∀ c ∈ cs, isBlank c = false

/-- **A text taken word by word**: it has no blank, or there is a first one. -/
theorem runs_induction {motive : List Char → Prop} (last : ∀ w, Solid w → motive w)
    (blank : ∀ w c cs, Solid w → isBlank c = true → motive cs → motive (w ++ c :: cs))
    (cs : List Char) : motive cs := by
  suffices h : ∀ w, Solid w → motive (w ++ cs) from h [] nofun
  induction cs with
  | nil => exact fun w hw => (List.append_nil w).symm ▸ last w hw
  | cons c cs ih =>
    intro w hw
    by_cases hc : isBlank c = true
    · exact blank w c cs hw hc (ih [] nofun)
    · rw [List.append_cons]
      refine ih (w ++ [c]) (List.forall_mem_append.mpr ⟨hw, ?_⟩)
      simpa using hc

section Words

variable {w cs ds : List Char} {c : Char}

theorem words_of_solid (hw : Solid w) : words w = if w = [] then [] else [w] := by
  rw [words, List.splitOnP_eq_singleton hw]
  cases w <;> rfl

/-- **A blank parts words.** -/
theorem words_append_cons (cs ds : List Char) (hc : isBlank c = true) :
    words (cs ++ c :: ds) = words cs ++ words ds := by
  rw [words, List.splitOnP_append_cons cs ds hc, List.filter_append]
  rfl

@[simp] theorem endsBlank_append_cons (cs ds : List Char) :
    endsBlank (cs ++ c :: ds) = endsBlank (c :: ds) := by
  simp [endsBlank, List.getLast?_append, List.getLast?_cons]

theorem startsBlank_of_solid (hw : Solid w) : startsBlank w = false := by
  cases w with
  | nil => rfl
  | cons c w => exact hw c List.mem_cons_self

theorem endsBlank_of_solid (hw : Solid w) : endsBlank w = false := by
  rcases List.eq_nil_or_concat w with rfl | ⟨front, last, rfl⟩
  · rfl
  · simpa [endsBlank] using hw last (by simp)

/-- Behind a blank, a text without words ends with a blank. -/
theorem endsBlank_cons_of_blank (hc : isBlank c = true) :
    endsBlank (c :: cs) = if words cs = [] then true else endsBlank cs := by
  induction cs using runs_induction generalizing c with
  | last w hw =>
    rw [words_of_solid hw]
    cases w with
    | nil => simpa [endsBlank] using hc
    | cons d w => simp [endsBlank, List.getLast?_cons]
  | blank w d cs hw hd ih =>
    rw [← List.cons_append, endsBlank_append_cons, endsBlank_append_cons, words_append_cons w cs hd,
      ih hd]
    by_cases hcs : words cs = [] <;> simp [hcs]

end Words

/-! ## The collapse, word by word

The collapse carries one bit along, whether a blank came before.  A space is written for the first
blank of a run, when the bit is not yet set. -/

section Collapse

variable {w : List Char} {c : Char}

theorem collapseAfter_append_of_solid (b : Bool) (cs : List Char) (hw : Solid w) :
    collapseAfter b (w ++ cs) = w ++ collapseAfter (if w = [] then b else false) cs := by
  induction w generalizing b with
  | nil => rfl
  | cons c w ih =>
    obtain ⟨hc, hw⟩ := List.forall_mem_cons.mp hw
    rw [List.cons_append, collapseAfter_cons_of_not_blank _ hc, ih false hw]
    simp

theorem collapseAfter_of_solid (b : Bool) (hw : Solid w) : collapseAfter b w = w := by
  simpa using collapseAfter_append_of_solid b [] hw

/-- The collapse behind a word and a blank: the blank has a space, unless a blank came before. -/
theorem collapseAfter_append_cons (b : Bool) (cs : List Char) (hw : Solid w)
    (hc : isBlank c = true) :
    collapseAfter b (w ++ c :: cs)
      = w ++ ((if w = [] ∧ b = true then [] else [' ']) ++ collapseAfter true cs) := by
  rw [collapseAfter_append_of_solid b (c :: cs) hw]
  by_cases hnil : w = []
  · cases b with
    | true => simp [hnil, collapseAfter_true_cons_of_blank cs hc]
    | false => simp [hnil, collapseAfter_false_cons_of_blank cs hc]
  · simp [hnil, collapseAfter_false_cons_of_blank cs hc]

/-- **A collapse keeps the words.** -/
theorem words_collapseAfter (b : Bool) (cs : List Char) :
    words (collapseAfter b cs) = words cs := by
  induction cs using runs_induction generalizing b with
  | last w hw => rw [collapseAfter_of_solid b hw]
  | blank w c cs hw hc ih =>
    rw [collapseAfter_append_cons b cs hw hc, words_append_cons w cs hc]
    split
    · next hnil => rw [hnil.1, List.nil_append, List.nil_append, ih]; rfl
    · rw [List.singleton_append, words_append_cons w _ rfl, ih]

/-- The space that stands for blanks, if there are any. -/
def spaceIf (b : Bool) : List Char :=
  if b then [' '] else []

/-- **A collapse is told by the words and the ends of a text.** -/
theorem collapseAfter_eq (b : Bool) (cs : List Char) :
    collapseAfter b cs = spaceIf (!b && startsBlank cs) ++
      (if words cs = [] then []
        else List.intercalate [' '] (words cs) ++ spaceIf (endsBlank cs)) := by
  induction cs using runs_induction generalizing b with
  | last w hw =>
    rw [collapseAfter_of_solid b hw, startsBlank_of_solid hw, endsBlank_of_solid hw,
      words_of_solid hw, Bool.and_false]
    by_cases hnil : w = [] <;> simp [hnil, spaceIf]
  | blank w c cs hw hc ih =>
    rw [collapseAfter_append_cons b cs hw hc, ih true, words_append_cons w cs hc,
      endsBlank_append_cons, endsBlank_cons_of_blank hc, words_of_solid hw]
    cases w with
    | nil =>
      have hstarts : startsBlank ([] ++ c :: cs) = true := hc
      rw [hstarts]
      cases b <;> by_cases hcs : words cs = [] <;> simp [hcs, spaceIf]
    | cons d w =>
      have hstarts : startsBlank (d :: w ++ c :: cs) = false := hw d List.mem_cons_self
      rw [hstarts]
      rcases hcs : words cs with _ | ⟨v, vs⟩ <;> simp [spaceIf]

/-! ## The ends -/

/-- Behind a blank, a collapsed text begins with a word. -/
theorem startsBlank_collapseAfter_true (cs : List Char) :
    startsBlank (collapseAfter true cs) = false := by
  induction cs with
  | nil => rfl
  | cons c cs ih =>
    by_cases hc : isBlank c = true
    · rw [collapseAfter_true_cons_of_blank cs hc, ih]
    · simp [collapseAfter, startsBlank, hc]

theorem head?_collapseAfter (cs : List Char) :
    (collapseAfter false cs).head? = some ' ' ↔ startsBlank cs = true := by
  cases cs with
  | nil => simp [startsBlank]
  | cons c cs =>
    by_cases hc : isBlank c = true
    · simp [collapseAfter_false_cons_of_blank cs hc, startsBlank, hc]
    · have hne : c ≠ ' ' := by rintro rfl; exact hc rfl
      simp [collapseAfter, startsBlank, hc, hne]

theorem collapseAfter_eq_nil_iff (cs : List Char) : collapseAfter false cs = [] ↔ cs = [] := by
  cases cs with
  | nil => simp
  | cons c cs => by_cases hc : isBlank c = true <;> simp [collapseAfter, hc]

/-- **A text is collapsed from the front**: the rest has only to know whether a blank came before
it. -/
theorem collapseAfter_append (b : Bool) (cs ds : List Char) :
    collapseAfter b (cs ++ ds)
      = collapseAfter b cs ++ collapseAfter (if cs = [] then b else endsBlank cs) ds := by
  induction cs generalizing b with
  | nil => rfl
  | cons c cs ih =>
    have hends : (if cs = [] then isBlank c else endsBlank cs) = endsBlank (c :: cs) := by
      rcases cs with _ | ⟨d, cs⟩ <;> simp [endsBlank, List.getLast?_cons]
    rw [if_neg (List.cons_ne_nil c cs), ← hends, List.cons_append]
    by_cases hc : isBlank c = true
    · cases b with
      | true =>
        rw [collapseAfter_true_cons_of_blank _ hc, collapseAfter_true_cons_of_blank _ hc, ih, hc]
      | false =>
        rw [collapseAfter_false_cons_of_blank _ hc, collapseAfter_false_cons_of_blank _ hc, ih, hc,
          List.cons_append]
    · have hc : isBlank c = false := Bool.eq_false_iff.mpr hc
      rw [collapseAfter_cons_of_not_blank _ hc, collapseAfter_cons_of_not_blank _ hc, ih, hc,
        List.cons_append]

theorem collapseAfter_false_append (cs ds : List Char) :
    collapseAfter false (cs ++ ds) = collapseAfter false cs ++ collapseAfter (endsBlank cs) ds := by
  rw [collapseAfter_append]
  cases cs <;> rfl

/-- **A collapsed text ends with a blank where the text does.** -/
theorem endsBlank_collapseAfter (cs : List Char) :
    endsBlank (collapseAfter false cs) = endsBlank cs := by
  induction cs using List.reverseRecOn with
  | nil => rfl
  | append_singleton cs c ih =>
    rw [collapseAfter_false_append, endsBlank_append_cons]
    by_cases hc : isBlank c = true
    · cases hends : endsBlank cs with
      | true => simpa [collapseAfter, endsBlank, hc] using ih.trans hends
      | false => simp [collapseAfter, endsBlank, hc, show isBlank ' ' = true from rfl]
    · simp [collapseAfter, endsBlank, hc]

theorem getLast?_collapseAfter (cs : List Char) :
    (collapseAfter false cs).getLast? = some ' ' ↔ endsBlank cs = true := by
  rw [← endsBlank_collapseAfter, endsBlank, Option.any_eq_true]
  refine ⟨fun h => ⟨' ', h, rfl⟩, ?_⟩
  rintro ⟨c, hlast, hc⟩
  rw [hlast, eq_space_of_mem_collapseAfter (List.mem_of_getLast? hlast) hc]

/-- **A collapse puts no two spaces side by side.** -/
theorem not_infix_collapseAfter (b : Bool) (cs : List Char) :
    ¬ [' ', ' '] <:+: collapseAfter b cs := by
  induction cs generalizing b with
  | nil => simp
  | cons c cs ih =>
    by_cases hc : isBlank c = true
    · cases b with
      | true => exact collapseAfter_true_cons_of_blank cs hc ▸ ih true
      | false =>
        rw [collapseAfter_false_cons_of_blank cs hc, List.infix_cons_iff]
        rintro (hfront | hrest)
        · obtain ⟨more, hmore⟩ := (List.cons_prefix_cons.mp hfront).2
          have hstarts := startsBlank_collapseAfter_true cs
          rw [← hmore] at hstarts
          contradiction
        · exact ih true hrest
    · have hc : isBlank c = false := Bool.eq_false_iff.mpr hc
      rw [collapseAfter_cons_of_not_blank cs hc, List.infix_cons_iff]
      rintro (hfront | hrest)
      · rw [← (List.cons_prefix_cons.mp hfront).1] at hc
        contradiction
      · exact ih false hrest

/-! ## What is collapsed -/

/-- **A text without another blank than the space and without two spaces side by side** is collapsed
already. -/
theorem collapseAfter_of_collapsed {cs : List Char} (hspace : ∀ c ∈ cs, isBlank c = true → c = ' ')
    (hapart : ¬ [' ', ' '] <:+: cs) : collapseAfter false cs = cs := by
  induction cs with
  | nil => rfl
  | cons c cs ih =>
    obtain ⟨hc, hcs⟩ := List.forall_mem_cons.mp hspace
    have hrest := ih hcs fun h => hapart (h.trans (List.suffix_cons c cs).isInfix)
    by_cases hblank : isBlank c = true
    · obtain rfl := hc hblank
      rw [collapseAfter_false_cons_of_blank cs rfl]
      rcases cs with _ | ⟨d, cs⟩
      · rfl
      · have hd : isBlank d = false := by
          rw [Bool.eq_false_iff]
          intro hd
          obtain rfl := hcs d List.mem_cons_self hd
          exact hapart ⟨[], cs, rfl⟩
        rw [collapseAfter_cons_of_not_blank cs hd] at hrest ⊢
        rw [hrest]
    · rw [collapseAfter_cons_of_not_blank cs (Bool.eq_false_iff.mpr hblank), hrest]

/-- What has been collapsed by itself may stand behind a blank. -/
theorem collapseAfter_collapseAfter_false (b : Bool) (cs : List Char) :
    collapseAfter b (collapseAfter false cs) = collapseAfter b cs := by
  cases b with
  | false => exact collapseAfter_collapseAfter false cs
  | true =>
    cases cs with
    | nil => rfl
    | cons c cs =>
      by_cases hc : isBlank c = true
      · rw [collapseAfter_false_cons_of_blank cs hc, collapseAfter_true_cons_of_blank _ rfl,
          collapseAfter_true_cons_of_blank cs hc, collapseAfter_collapseAfter]
      · have hc : isBlank c = false := Bool.eq_false_iff.mpr hc
        rw [collapseAfter_cons_of_not_blank cs hc, collapseAfter_cons_of_not_blank _ hc,
          collapseAfter_cons_of_not_blank cs hc, collapseAfter_collapseAfter]

/-- A blank in front counts for a text that begins with one. -/
theorem collapseAfter_eq_collapseAfter_false_iff (b : Bool) (cs : List Char) :
    collapseAfter b cs = collapseAfter false cs ↔ ¬ (b = true ∧ startsBlank cs = true) := by
  cases b with
  | false => simp
  | true =>
    rw [collapseAfter_eq true, collapseAfter_eq false, List.append_cancel_right_eq]
    cases startsBlank cs <;> simp [spaceIf]

end Collapse

/-! ## Collapsed texts

`IsCollapse` does not mention the collapse.  It leaves no choice all the same: by the first two
conditions a text is its own collapse, and that is told by its words and its ends. -/

/-- **One text is the collapse of another**: it has no blank but single spaces, the same words, and
blanks at the same ends. -/
structure IsCollapse (result text : String) : Prop where
  space : ∀ c ∈ result.toList, isBlank c = true → c = ' '
  apart : ¬ [' ', ' '] <:+: result.toList
  words : words result.toList = words text.toList
  starts : result.toList.head? = some ' ' ↔ startsBlank text.toList = true
  ends : result.toList.getLast? = some ' ' ↔ endsBlank text.toList = true
  empty : result = "" ↔ text = ""

variable (text a b : String)

theorem toList_collapse : (collapse text).toList = collapseAfter false text.toList :=
  String.toList_ofList

theorem isCollapse_collapse : IsCollapse (collapse text) text where
  space c hc := eq_space_of_mem_collapseAfter (toList_collapse text ▸ hc)
  apart := toList_collapse text ▸ not_infix_collapseAfter false text.toList
  words := toList_collapse text ▸ words_collapseAfter false text.toList
  starts := toList_collapse text ▸ head?_collapseAfter text.toList
  ends := toList_collapse text ▸ getLast?_collapseAfter text.toList
  empty := by
    rw [← String.toList_eq_nil_iff, toList_collapse, collapseAfter_eq_nil_iff,
      String.toList_eq_nil_iff]

/-- A text that is collapsed is told by its words and its ends. -/
theorem IsCollapse.eq {result text : String} (h : IsCollapse result text) :
    result = collapse text := by
  have hresult := collapseAfter_of_collapsed h.space h.apart
  have hstarts : startsBlank result.toList = startsBlank text.toList := by
    rw [Bool.eq_iff_iff, ← h.starts, ← head?_collapseAfter, hresult]
  have hends : endsBlank result.toList = endsBlank text.toList := by
    rw [Bool.eq_iff_iff, ← h.ends, ← getLast?_collapseAfter, hresult]
  rw [← String.toList_inj, toList_collapse, ← hresult, collapseAfter_eq, collapseAfter_eq,
    hstarts, hends, h.words]

theorem isCollapse_iff (result : String) : IsCollapse result text ↔ result = collapse text :=
  ⟨IsCollapse.eq, fun h => h ▸ isCollapse_collapse text⟩

theorem toList_collapse_append :
    (collapse (a ++ b)).toList
      = collapseAfter false a.toList ++ collapseAfter (endsBlank a.toList) b.toList := by
  rw [toList_collapse, String.toList_append, collapseAfter_false_append]

/-- Pieces may be collapsed before they are put together. -/
theorem collapse_append_collapse : collapse (collapse a ++ collapse b) = collapse (a ++ b) := by
  rw [← String.toList_inj, toList_collapse_append, toList_collapse_append, toList_collapse,
    toList_collapse, collapseAfter_collapseAfter, endsBlank_collapseAfter,
    collapseAfter_collapseAfter_false]

/-- **A collapse goes piece by piece** unless the pieces part a run of blanks. -/
theorem collapse_append_eq_iff :
    collapse (a ++ b) = collapse a ++ collapse b ↔
      ¬ (endsBlank a.toList = true ∧ startsBlank b.toList = true) := by
  rw [← String.toList_inj, toList_collapse_append, String.toList_append, toList_collapse,
    toList_collapse, List.append_cancel_left_eq, collapseAfter_eq_collapseAfter_false_iff]

/-- **What a collapse does.**  Of a text it makes the one text that has single spaces for blanks,
the same words, and a space at an end just where the text has a blank there.  So a second collapse
changes nothing; pieces may be collapsed before they are put together, and have to be collapsed
again just where one ends and the next begins with a blank. -/
theorem collapse_of_words :
    (∀ result, IsCollapse result text ↔ result = collapse text) ∧
      collapse (collapse text) = collapse text ∧
      collapse (a ++ b) = collapse (collapse a ++ collapse b) ∧
      (collapse (a ++ b) = collapse a ++ collapse b ↔
        ¬ (endsBlank a.toList = true ∧ startsBlank b.toList = true)) :=
  ⟨isCollapse_iff text, collapse_collapse text, (collapse_append_collapse a b).symm,
    collapse_append_eq_iff a b⟩

-- A run of three kinds of blanks is parted, and has two spaces then.
example : collapse ("x\t" ++ "\u2003\ny") = "x y" ∧
    collapse "x\t" ++ collapse "\u2003\ny" = "x  y" := by
  decide +kernel

end DocMarkdown.Text
