/-!
# Text/Cut — a text cut at its first mark

`cut` takes a text apart at the first occurrence of a whole mark such as `-->`.  It loses nothing
but the mark: `eq_of_cut` puts the two sides together again.
-/

namespace DocMarkdown.Text

/-- **The two sides of the first occurrence of `mark`**, if there is one. -/
def cut (mark : List Char) : List Char → Option (List Char × List Char)
  | [] => if mark = [] then some ([], []) else none
  | c :: cs =>
    if mark.isPrefixOf (c :: cs) then some ([], (c :: cs).drop mark.length)
    else (cut mark cs).map fun sides => (c :: sides.1, sides.2)

/-- **A cut loses only its mark.** -/
theorem eq_of_cut {mark cs before after : List Char} (h : cut mark cs = some (before, after)) :
    cs = before ++ mark ++ after := by
  induction cs generalizing before with
  | nil =>
    simp only [cut] at h
    split at h <;> simp_all
  | cons c cs ih =>
    simp only [cut] at h
    split at h
    · next hp =>
      obtain ⟨rest, hrest⟩ := List.isPrefixOf_iff_prefix.1 hp
      simp only [Option.some.injEq, Prod.mk.injEq] at h
      obtain ⟨rfl, rfl⟩ := h
      simp [← hrest]
    · obtain ⟨⟨b, a⟩, hba, heq⟩ := Option.map_eq_some_iff.1 h
      simp only [Prod.mk.injEq] at heq
      obtain ⟨rfl, rfl⟩ := heq
      simp [ih hba]

end DocMarkdown.Text
