/-!
# Text/Blank — blank characters and the collapse of their runs

**Blank** is the Unicode property White_Space.  Running text is laid out by its reader, so the
blanks between two words carry no more than the fact that the words are two: `collapse` writes every
maximal run of blanks as one space and keeps all other characters.
-/

namespace DocMarkdown.Text

/-! ## The property -/

/-- **A blank character** — the Unicode property White_Space. -/
def isBlank (c : Char) : Bool :=
  let n := c.toNat
  (0x09 ≤ n && n ≤ 0x0D) || n == 0x20 || n == 0x85 || n == 0xA0 || n == 0x1680 ||
    (0x2000 ≤ n && n ≤ 0x200A) || n == 0x2028 || n == 0x2029 || n == 0x202F || n == 0x205F ||
    n == 0x3000

/-! ## Collapse -/

/-- The collapse of a text, given whether the character before it was blank: the run that this
character belongs to has its space already. -/
def collapseAfter : Bool → List Char → List Char
  | _, [] => []
  | blankBefore, c :: cs =>
    if isBlank c then
      if blankBefore then collapseAfter true cs else ' ' :: collapseAfter true cs
    else c :: collapseAfter false cs

/-- **The collapse of a text**: one space for every maximal run of blanks, at its ends too. -/
def collapse (text : String) : String :=
  String.ofList (collapseAfter false text.toList)

@[simp] theorem collapseAfter_nil (b : Bool) : collapseAfter b [] = [] := rfl

theorem collapseAfter_cons_of_not_blank {b : Bool} {c : Char} (cs : List Char)
    (h : isBlank c = false) : collapseAfter b (c :: cs) = c :: collapseAfter false cs := by
  simp [collapseAfter, h]

theorem collapseAfter_true_cons_of_blank {c : Char} (cs : List Char) (h : isBlank c = true) :
    collapseAfter true (c :: cs) = collapseAfter true cs := by
  simp [collapseAfter, h]

theorem collapseAfter_false_cons_of_blank {c : Char} (cs : List Char) (h : isBlank c = true) :
    collapseAfter false (c :: cs) = ' ' :: collapseAfter true cs := by
  simp [collapseAfter, h]

/-- **The only blank of a collapsed text is the space.** -/
theorem eq_space_of_mem_collapseAfter {b : Bool} {c : Char} {cs : List Char}
    (h : c ∈ collapseAfter b cs) (hc : isBlank c = true) : c = ' ' := by
  induction cs generalizing b with
  | nil => contradiction
  | cons d cs ih =>
    by_cases hd : isBlank d = true
    · cases b with
      | true =>
        rw [collapseAfter_true_cons_of_blank cs hd] at h
        exact ih h
      | false =>
        rw [collapseAfter_false_cons_of_blank cs hd] at h
        exact (List.mem_cons.mp h).elim id ih
    · rw [collapseAfter_cons_of_not_blank cs (Bool.eq_false_iff.mpr hd)] at h
      rcases List.mem_cons.mp h with rfl | h
      · contradiction
      · exact ih h

theorem newline_notMem_collapse (text : String) : '\n' ∉ (collapse text).toList := by
  rw [collapse, String.toList_ofList]
  intro h
  have hspace := eq_space_of_mem_collapseAfter h rfl
  contradiction

theorem collapseAfter_collapseAfter (b : Bool) (cs : List Char) :
    collapseAfter b (collapseAfter b cs) = collapseAfter b cs := by
  induction cs generalizing b with
  | nil => rfl
  | cons c cs ih =>
    by_cases hc : isBlank c = true
    · cases b with
      | true => rw [collapseAfter_true_cons_of_blank cs hc, ih]
      | false =>
        rw [collapseAfter_false_cons_of_blank cs hc, collapseAfter_false_cons_of_blank _ rfl, ih]
    · have hc : isBlank c = false := Bool.eq_false_iff.mpr hc
      rw [collapseAfter_cons_of_not_blank cs hc, collapseAfter_cons_of_not_blank _ hc, ih]

/-- **A text that is collapsed stays as it is.** -/
@[simp] theorem collapse_collapse (text : String) : collapse (collapse text) = collapse text := by
  rw [collapse, collapse, String.toList_ofList, collapseAfter_collapseAfter]

end DocMarkdown.Text
