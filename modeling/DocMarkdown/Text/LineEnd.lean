/-!
# Text/LineEnd — one line end for the three in use

Text files end a line with LF, with CR LF, or with a lone CR.  `unifyLineEnds` writes all three as
LF: first the pairs, then every CR that is left.  `carriageReturn_not_mem_unifyLineEnds` says that
no CR survives.
-/

namespace DocMarkdown.Text

/-- Every CR LF as LF. -/
def joinPairs : List Char → List Char
  | '\r' :: '\n' :: cs => '\n' :: joinPairs cs
  | c :: cs => c :: joinPairs cs
  | [] => []

/-- A lone CR as LF, any other character as it is. -/
def feedLine (c : Char) : Char :=
  if c = '\r' then '\n' else c

/-- **One line end for all**: CR LF and every other CR become LF. -/
def unifyLineEnds (cs : List Char) : List Char :=
  (joinPairs cs).map feedLine

/-- A character that is no CR is no part of a line end with what follows it. -/
theorem unifyLineEnds_cons {c : Char} (cs : List Char) (h : c ≠ '\r') :
    unifyLineEnds (c :: cs) = c :: unifyLineEnds cs := by
  have hpair : joinPairs (c :: cs) = c :: joinPairs cs := by
    rw [joinPairs]
    rintro ds rfl
    exact absurd rfl h
  rw [unifyLineEnds, hpair, List.map_cons, feedLine, if_neg h, unifyLineEnds]

/-- **A text without a CR stays as it is.** -/
theorem unifyLineEnds_of_not_mem {cs : List Char} (h : '\r' ∉ cs) : unifyLineEnds cs = cs := by
  induction cs with
  | nil => rfl
  | cons c cs ih =>
    rw [List.mem_cons, not_or] at h
    rw [unifyLineEnds_cons cs (Ne.symm h.1), ih h.2]

/-- No CR is left. -/
theorem carriageReturn_not_mem_unifyLineEnds (cs : List Char) : '\r' ∉ unifyLineEnds cs := by
  simp only [unifyLineEnds, List.mem_map, not_exists, not_and]
  intro c _ h
  unfold feedLine at h
  split at h
  · exact absurd h (by decide)
  · contradiction

end DocMarkdown.Text
