import DocMarkdown.Proofs.Foundations
import DocMarkdown.Text.Indent

/-!
# Proofs/Text/Indent — what a dedent does to the lines of a text

A dedent takes the same number of characters from the front of every line that is not empty
(`solidLines`), and joins what is left.  Nothing is left over to take a second time
(`surplusIndent_solidLines_dedent`), so a second dedent only drops the lines that the first one has
emptied, and changes nothing where there are none (`dedent_of_lines`).
-/

namespace DocMarkdown.Text

/-! ## Solid lines -/

section SolidLines

variable {cs line : List Char} {lines : List (List Char)}

theorem newline_notMem_of_mem_solidLines (h : line ∈ solidLines cs) : '\n' ∉ line :=
  List.notMem_of_mem_splitOn (List.mem_filter.mp h).1

theorem length_pos_of_mem_solidLines (h : line ∈ solidLines cs) : 0 < line.length := by
  have hsolid := (List.mem_filter.mp h).2
  rw [List.length_pos_iff]
  simpa using hsolid

/-- **The solid lines of lines that are joined** are those of them that are not empty. -/
theorem solidLines_intercalate (h : ∀ line ∈ lines, '\n' ∉ line) :
    solidLines (List.intercalate ['\n'] lines) = lines.filter (!·.isEmpty) := by
  by_cases hnil : lines = []
  · subst hnil
    rfl
  · rw [solidLines, List.splitOn_intercalate '\n' h hnil]

end SolidLines

/-! ## Surplus indentation

The first solid line decides for all of them.  Its spaces beyond four are taken from its front, and
as many characters from the front of every other line, whatever they are. -/

theorem indentOf_le_length (line : List Char) : indentOf line ≤ line.length := by
  rw [indentOf]
  exact (List.takeWhile_prefix _).length_le

/-- Spaces that are taken from the front are no longer counted. -/
theorem indentOf_drop {line : List Char} {k : Nat} (h : k ≤ indentOf line) :
    indentOf (line.drop k) = indentOf line - k := by
  induction k generalizing line with
  | zero => rfl
  | succ k ih =>
    cases line with
    | nil => exact absurd h (Nat.not_succ_le_zero k)
    | cons c line =>
      by_cases hc : c = ' '
      · have hcons : indentOf (c :: line) = indentOf line + 1 := by simp [indentOf, hc]
        rw [hcons] at h ⊢
        rw [List.drop_succ_cons, ih (Nat.le_of_succ_le_succ h), Nat.add_sub_add_right]
      · have hcons : indentOf (c :: line) = 0 := by simp [indentOf, hc]
        rw [hcons] at h
        exact absurd h (Nat.not_succ_le_zero k)

/-- The first line keeps some of its characters: at most its spaces are taken. -/
theorem surplusIndent_lt_length {first : List Char} {rest : List (List Char)}
    (h : 0 < first.length) : surplusIndent (first :: rest) < first.length := by
  have hle := indentOf_le_length first
  rw [surplusIndent, codeIndent]
  omega

theorem surplusIndent_eq_zero_of_le {first : List Char} (rest : List (List Char))
    (h : indentOf first ≤ codeIndent) : surplusIndent (first :: rest) = 0 :=
  Nat.sub_eq_zero_of_le h

theorem dedentLines_of_surplusIndent_eq_zero {lines : List (List Char)}
    (h : surplusIndent lines = 0) : dedentLines lines = lines := by
  simp [dedentLines, h]

/-! ## The lines of a dedented text

A dedent may empty a line, which a second one then drops.  The first line is never among these, and
once its surplus has been taken it has none. -/

section Dedented

variable (text : String)

theorem newline_notMem_of_mem_dedentLines :
    ∀ line ∈ dedentLines (solidLines text.toList), '\n' ∉ line := by
  intro line h
  obtain ⟨whole, hwhole, rfl⟩ := List.mem_map.mp h
  exact fun hmem => newline_notMem_of_mem_solidLines hwhole (List.mem_of_mem_drop hmem)

theorem toList_dedent :
    (dedent text).toList = List.intercalate ['\n'] (dedentLines (solidLines text.toList)) :=
  String.toList_ofList

/-- **A dedented text has one line for each solid line**, if there is any. -/
theorem splitOn_dedent (h : solidLines text.toList ≠ []) :
    (dedent text).toList.splitOn '\n' = dedentLines (solidLines text.toList) := by
  rw [toList_dedent]
  refine List.splitOn_intercalate '\n' (newline_notMem_of_mem_dedentLines text) ?_
  simpa [dedentLines] using h

/-- The solid lines of a dedented text are those that the dedent has not emptied. -/
theorem solidLines_dedent :
    solidLines (dedent text).toList =
      (dedentLines (solidLines text.toList)).filter (!·.isEmpty) := by
  rw [toList_dedent, solidLines_intercalate (newline_notMem_of_mem_dedentLines text)]

/-- The line ends in a dedented text. -/
theorem count_newline_dedent :
    (dedent text).toList.count '\n' = (solidLines text.toList).length - 1 := by
  rw [toList_dedent, List.count_intercalate_singleton (newline_notMem_of_mem_dedentLines text),
    length_dedentLines]

/-- **The first solid line is there after a dedent**, with four spaces in front of it at most. -/
theorem exists_solidLines_dedent {first : List Char} {rest : List (List Char)}
    (h : solidLines text.toList = first :: rest) :
    ∃ rest', solidLines (dedent text).toList
      = first.drop (surplusIndent (first :: rest)) :: rest' := by
  have hfirst : first ∈ solidLines text.toList := by rw [h]; exact List.mem_cons_self
  have hlt : surplusIndent (first :: rest) < first.length :=
    surplusIndent_lt_length (length_pos_of_mem_solidLines hfirst)
  refine ⟨(rest.map (·.drop (surplusIndent (first :: rest)))).filter (!·.isEmpty), ?_⟩
  rw [solidLines_dedent, h, dedentLines, List.map_cons, List.filter_cons_of_pos]
  simpa using hlt

/-- **Nothing is left over to take a second time.** -/
theorem surplusIndent_solidLines_dedent : surplusIndent (solidLines (dedent text).toList) = 0 := by
  rcases h : solidLines text.toList with _ | ⟨first, rest⟩
  · rw [solidLines_dedent, h]
    rfl
  · obtain ⟨rest', hdedent⟩ := exists_solidLines_dedent text h
    have hsurplus : surplusIndent (first :: rest) = indentOf first - codeIndent := rfl
    rw [hdedent]
    refine surplusIndent_eq_zero_of_le rest' ?_
    rw [indentOf_drop (by omega)]
    omega

/-- **A second dedent only drops empty lines.** -/
theorem dedent_dedent :
    dedent (dedent text)
      = String.ofList (List.intercalate ['\n'] (solidLines (dedent text).toList)) := by
  rw [dedent, dedentLines_of_surplusIndent_eq_zero (surplusIndent_solidLines_dedent text)]

/-- A third dedent changes nothing more. -/
theorem dedent_dedent_dedent : dedent (dedent (dedent text)) = dedent (dedent text) := by
  rw [dedent_dedent (dedent text), dedent_dedent text, String.toList_ofList,
    solidLines_intercalate fun _ => newline_notMem_of_mem_solidLines, solidLines,
    List.filter_filter]
  simp only [Bool.and_self]

/-- **A second dedent changes nothing where every line is longer than what the first one took.** -/
theorem dedent_dedent_eq_iff :
    dedent (dedent text) = dedent text ↔
      ∀ line ∈ solidLines text.toList, surplusIndent (solidLines text.toList) < line.length := by
  have hsolid : solidLines (dedent text).toList = dedentLines (solidLines text.toList) ↔
      ∀ line ∈ solidLines text.toList, surplusIndent (solidLines text.toList) < line.length := by
    rw [solidLines_dedent, List.filter_eq_self]
    simp [dedentLines]
  rw [← hsolid]
  constructor
  · intro heq
    rcases h : solidLines text.toList with _ | ⟨first, rest⟩
    · rw [solidLines_dedent, h]
      rfl
    · -- both sides have a line, so they are the lines of the two texts
      have hne : solidLines text.toList ≠ [] := by rw [h]; exact List.cons_ne_nil _ _
      have hne' : solidLines (dedent text).toList ≠ [] := by
        obtain ⟨rest', hdedent⟩ := exists_solidLines_dedent text h
        rw [hdedent]
        exact List.cons_ne_nil _ _
      have hsplit := splitOn_dedent (dedent text) hne'
      rw [heq, splitOn_dedent text hne,
        dedentLines_of_surplusIndent_eq_zero (surplusIndent_solidLines_dedent text)] at hsplit
      rw [← h, hsplit]
  · intro hlines
    rw [dedent_dedent, hlines]
    rfl

end Dedented

/-- **What a dedent does**, line by line.  Of a text without a solid line nothing is left.
Otherwise the dedented text has one line for each solid line, without as many characters from its
front as the first of them has spaces beyond four.  A second dedent only drops empty lines, and a
third one changes nothing more; the second one changes nothing just where every solid line is longer
than what was taken from it, and so where the first one has at most four leading spaces. -/
theorem dedent_of_lines (text : String) :
    let lines := (text.toList.splitOn '\n').filter (!·.isEmpty)
    let spaces := ((lines.headD []).takeWhile (· == ' ')).length
    (lines = [] → dedent text = "") ∧
    (lines ≠ [] →
      (dedent text).toList.splitOn '\n' = lines.map fun line => line.drop (spaces - 4)) ∧
    dedent (dedent text) = String.ofList (List.intercalate ['\n']
      (((dedent text).toList.splitOn '\n').filter (!·.isEmpty))) ∧
    dedent (dedent (dedent text)) = dedent (dedent text) ∧
    (dedent (dedent text) = dedent text ↔ ∀ line ∈ lines, spaces - 4 < line.length) ∧
    (spaces ≤ 4 → dedent (dedent text) = dedent text) := by
  intro lines spaces
  have hlines : lines = solidLines text.toList := rfl
  have hspaces : spaces - 4 = surplusIndent (solidLines text.toList) := by
    rw [← hlines]
    change ((lines.headD []).takeWhile (· == ' ')).length - 4 = surplusIndent lines
    rcases lines with _ | ⟨first, rest⟩ <;> rfl
  simp only [hlines, hspaces]
  refine ⟨fun hnil => ?_, splitOn_dedent text, dedent_dedent text, dedent_dedent_dedent text,
    dedent_dedent_eq_iff text, fun hle => ?_⟩
  · rw [dedent, hnil]
    rfl
  · refine (dedent_dedent_eq_iff text).mpr fun line hline => ?_
    rw [← hspaces, Nat.sub_eq_zero_of_le hle]
    exact length_pos_of_mem_solidLines hline

-- The line ` b` is emptied, and so is lost the second time.
example : dedent "      a\n b" = "    a\n" ∧ dedent (dedent "      a\n b") = "    a" := by
  decide +kernel

end DocMarkdown.Text
