/-!
# Text/Width — places in a text, counted in bytes

Positions in a document are byte offsets of its UTF-8 form.  `width` counts the bytes of a piece of
text; it is additive (`width_append`), so a place is the width of what stands before it.
-/

namespace DocMarkdown.Text

/-- **The width of a text**: the bytes of its UTF-8 form. -/
def width : List Char → Nat
  | [] => 0
  | c :: cs => c.utf8Size + width cs

@[simp] theorem width_nil : width [] = 0 := rfl

@[simp] theorem width_cons (c : Char) (cs : List Char) :
    width (c :: cs) = c.utf8Size + width cs := rfl

/-- **Width is additive.** -/
@[simp] theorem width_append (as bs : List Char) : width (as ++ bs) = width as + width bs := by
  induction as with
  | nil => simp
  | cons c cs ih => simp [ih, Nat.add_assoc]

/-- **A place is told by its width**: a text has one front that is so wide. -/
theorem eq_of_width_eq {as bs as' bs' : List Char} (h : as ++ bs = as' ++ bs')
    (hwidth : width as = width as') : as = as' := by
  induction as generalizing as' with
  | nil =>
    rcases as' with _ | ⟨c, as'⟩
    · rfl
    · have hpos := c.utf8Size_pos
      simp only [width_nil, width_cons] at hwidth
      omega
  | cons c as ih =>
    rcases as' with _ | ⟨d, as'⟩
    · have hpos := c.utf8Size_pos
      simp only [width_nil, width_cons] at hwidth
      omega
    · obtain ⟨rfl, hrest⟩ := List.cons.inj h
      rw [ih hrest (Nat.add_left_cancel hwidth)]

end DocMarkdown.Text
