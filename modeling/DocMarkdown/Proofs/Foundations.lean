/-!
# Proofs/Foundations — lists, results and bytes

What the theory needs of lists, of results that may be errors and of bytes, and what is not in the
library: facts in which no definition of a page, a text or a disk comes up.
-/

universe u v w

namespace List

variable {α : Type u}

/-! ## Places in a list

A place is named by its index or by what stands before it, and a first or a last occurrence by what
does not stand there. -/

theorem getElem?_eq_some_iff_append {l : List α} {i : Nat} {a : α} :
    l[i]? = some a ↔ ∃ front behind, l = front ++ a :: behind ∧ front.length = i := by
  constructor
  · intro h
    obtain ⟨hi, rfl⟩ := getElem?_eq_some_iff.mp h
    exact ⟨l.take i, l.drop (i + 1), by simp, length_take_of_le (Nat.le_of_lt hi)⟩
  · rintro ⟨front, behind, rfl, rfl⟩
    simp

theorem pairwise_snd_zipIdx (l : List α) (k : Nat) :
    (l.zipIdx k).Pairwise fun x y => x.2 < y.2 := by
  induction l generalizing k with
  | nil => exact .nil
  | cons a l ih =>
    exact pairwise_cons.mpr ⟨fun _ hx => le_snd_of_mem_zipIdx hx, ih (k + 1)⟩

/-- What is not at the front of a list is in the rest of it. -/
theorem exists_of_append_eq {a : α} {xs ys front rest : List α} (hxs : a ∉ xs)
    (h : xs ++ ys = front ++ a :: rest) : ∃ mid, ys = mid ++ a :: rest := by
  rcases append_eq_append_iff.mp h with ⟨mid, -, hys⟩ | ⟨mid, hmid, hrest⟩
  · exact ⟨mid, hys⟩
  · cases mid with
    | nil => exact ⟨[], hrest.symm⟩
    | cons c cs =>
      obtain ⟨rfl, -⟩ := cons.inj hrest
      exact absurd (hmid ▸ mem_append_right front mem_cons_self) hxs

/-- The first element that is not dropped is of another kind. -/
theorem not_of_dropWhile_eq_cons {p : α → Bool} {l rest : List α} {a : α}
    (h : l.dropWhile p = a :: rest) : p a = false := by
  have hne : l.dropWhile p ≠ [] := by simp [h]
  have hhead := head_dropWhile_not p hne
  simpa [h] using hhead

/-! ## Fronts and stretches -/

theorem not_isPrefixOf_of_ne [BEq α] [LawfulBEq α] {front l : List α}
    (h : ∀ rest, l ≠ front ++ rest) : ¬ front.isPrefixOf l = true := by
  intro hprefix
  obtain ⟨rest, hrest⟩ := isPrefixOf_iff_prefix.mp hprefix
  exact h rest hrest.symm

/-- A mark whose last element comes only once in it overlaps no other occurrence of itself: where
it begins before its place, it lies before its place. -/
theorem infix_of_prefix_append {front content rest : List α} {last : α}
    (hlast : last ∉ front) (hne : content ≠ [])
    (h : front ++ [last] <+: content ++ (front ++ [last]) ++ rest) :
    front ++ [last] <:+: content := by
  have hpos : 0 < content.length := length_pos_iff.mpr hne
  by_cases hlen : (front ++ [last]).length ≤ content.length
  · rw [append_assoc] at h
    exact (prefix_of_prefix_length_le h (prefix_append _ _) hlen).isInfix
  · -- the last element of the mark falls on an earlier place in it
    exfalso
    rw [length_append, length_singleton] at hlen
    obtain ⟨tail, htail⟩ := h
    have hat := congrArg (·[front.length]?) htail
    simp only [append_assoc] at hat
    rw [getElem?_append_right (Nat.le_refl _), Nat.sub_self, singleton_append,
      getElem?_cons_zero, getElem?_append_right (by omega),
      getElem?_append_left (by omega)] at hat
    exact hlast (mem_of_getElem? hat.symm)

/-! ## Pieces between separators -/

section Pieces

variable [BEq α] [LawfulBEq α] {sep : α}

/-- No separator is in a piece. -/
theorem notMem_of_mem_splitOn {l piece : List α} (h : piece ∈ l.splitOn sep) : sep ∉ piece := by
  induction l generalizing piece with
  | nil => simp_all [splitOn_nil]
  | cons a l ih =>
    obtain ⟨first, pieces, hsplit⟩ := exists_cons_of_ne_nil (splitOn_ne_nil sep l)
    rw [splitOn_cons_eq_if_modifyHead, hsplit, modifyHead_cons] at h
    rw [hsplit] at ih
    split at h
    · rcases mem_cons.mp h with rfl | h
      · exact not_mem_nil
      · exact ih h
    · next ha =>
      rcases mem_cons.mp h with rfl | h
      · rw [mem_cons, not_or]
        exact ⟨fun heq => ha (beq_iff_eq.mpr heq.symm), ih mem_cons_self⟩
      · exact ih (mem_cons_of_mem _ h)

/-- The number of separators between pieces that are joined. -/
theorem count_intercalate_singleton {pieces : List (List α)} (h : ∀ piece ∈ pieces, sep ∉ piece) :
    ([sep].intercalate pieces).count sep = pieces.length - 1 := by
  induction pieces with
  | nil => rfl
  | cons piece pieces ih =>
    obtain ⟨hpiece, hpieces⟩ := forall_mem_cons.mp h
    cases pieces with
    | nil => simpa using count_eq_zero.mpr hpiece
    | cons next pieces =>
      rw [intercalate_cons_cons, count_append, count_append, ih hpieces,
        count_eq_zero.mpr hpiece]
      simp [Nat.add_comm]

end Pieces

end List

namespace Except

variable {ε : Type u}

/-! ## Results in turn

The second of two results may depend on the first, and the first error is that of both. -/

section Bind

variable {α β γ : Type v}

theorem ok_bind (a : α) (f : α → Except ε β) : ok a >>= f = f a := rfl

/-- **Two results in turn are both needed.** -/
theorem exists_of_bind_eq_ok {x : Except ε α} {f : α → Except ε β} {b : β}
    (h : x >>= f = .ok b) : ∃ a, x = .ok a ∧ f a = .ok b := by
  rcases x with err | a
  · contradiction
  · exact ⟨a, rfl, h⟩

/-- What is made of the last of two results is made behind both. -/
theorem map_bind (x : Except ε α) (f : α → Except ε β) (g : β → γ) :
    (x >>= f).map g = x >>= fun a => (f a).map g := by
  rcases x with err | a <;> rfl

/-- What is made of the first is made before the second. -/
theorem bind_map (x : Except ε α) (g : α → β) (f : β → Except ε γ) :
    x.map g >>= f = x >>= fun a => f (g a) := by
  rcases x with err | a <;> rfl

end Bind

/-! ## Results without their errors -/

variable {α : Type v} {β : Type w}

theorem toOption_map (x : Except ε α) (f : α → β) : (x.map f).toOption = x.toOption.map f := by
  cases x <;> rfl

theorem eq_ok_of_toOption {x : Except ε α} {a : α} (h : x.toOption = some a) : x = .ok a := by
  cases x with
  | error error => contradiction
  | ok b => exact congrArg Except.ok (Option.some.inj h)

end Except

namespace String

/-- The bytes of a text are read as that text. -/
theorem fromUTF8?_toUTF8 (text : String) : fromUTF8? text.toUTF8 = some text := by
  have hvalid : text.toUTF8.IsValidUTF8 := text.isValidUTF8
  rw [fromUTF8?, dif_pos hvalid]
  rfl

end String
