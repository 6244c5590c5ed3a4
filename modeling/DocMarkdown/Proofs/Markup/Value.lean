import DocMarkdown.Proofs.Markup.Reference
import DocMarkdown.Proofs.Markup.Reread

/-!
# Proofs/Markup/Value — what a value stands for

A value **unescapes** to another text when its references are replaced by what they denote and all
else stays (`Unescapes`).  It does so just when every `&` in it begins a reference that denotes a
character (`exists_unescapes_iff`), and only to the text that is read for it
(`unescape?_eq_some_iff`).
-/

namespace DocMarkdown.Markup

/-! ## Names of references

A reference runs to the first semicolon, and an `&` or a `<` breaks it off before.  So what denotes
a character must have none of the three in it, however it is spelled. -/

/-- **A character may stand in the name of a reference.** -/
def InReference (c : Char) : Prop :=
  c ≠ ';' ∧ c ≠ '&' ∧ c ≠ '<'

instance : DecidablePred InReference := fun _ => inferInstanceAs (Decidable (_ ∧ _ ∧ _))

namespace Spelling

variable {spelling : Spelling} {base : Text.Base} {mark digits name : List Char} {c : Char}

theorem inReference_of_announces (h : spelling.Announces base mark) :
    ∀ d ∈ mark, InReference d := by
  cases h <;> simp [InReference]

theorem inReference_of_spells {n : Nat} (h : base.Spells digits n) :
    ∀ d ∈ digits, InReference d := by
  intro d hd
  refine ⟨?_, ?_, ?_⟩ <;> rintro rfl <;> refine h.notMem ?_ hd <;> cases base <;> rfl

/-- The names of characters are names of references. -/
theorem inReference_of_named (h : (String.ofList name, c) ∈ namedCharacters) :
    ∀ d ∈ name, InReference d := by
  have hall : ∀ entry ∈ namedCharacters, ∀ d ∈ entry.1.toList, InReference d := by
    simp [namedCharacters, InReference]
  simpa using hall _ h

/-- **A reference that denotes a character ends at its semicolon.** -/
theorem Denotes.inReference (h : spelling.Denotes name c) : ∀ d ∈ name, InReference d := by
  cases h with
  | named hname => exact inReference_of_named hname
  | numbered hmark hspells =>
    refine List.forall_mem_cons.mpr ⟨by decide, List.forall_mem_append.mpr
      ⟨inReference_of_announces hmark, inReference_of_spells hspells⟩⟩
  | signed _ hmark hspells =>
    refine List.forall_mem_cons.mpr ⟨by decide, List.forall_mem_append.mpr
      ⟨inReference_of_announces hmark, List.forall_mem_cons.mpr
        ⟨by decide, inReference_of_spells hspells⟩⟩⟩

end Spelling

/-! ## Values

`Unescapes` goes through a value from the front and passes a reference over as a whole; `Resolvable`
speaks of each `&` wherever it stands.  The two agree since the name of a reference has no `&` in
it. -/

/-- **A value with its references replaced** by the characters that they denote. -/
inductive Unescapes : List Char → List Char → Prop
  | nil : Unescapes [] []
  | literal {c : Char} {cs ds : List Char} : c ≠ '&' → Unescapes cs ds →
      Unescapes (c :: cs) (c :: ds)
  | reference {name cs ds : List Char} {c : Char} : Spelling.value.Denotes name c →
      Unescapes cs ds → Unescapes ('&' :: (name ++ ';' :: cs)) (c :: ds)

/-- **Every `&` begins a reference** that denotes a character. -/
def Resolvable (raw : List Char) : Prop :=
  ∀ front rest, raw = front ++ '&' :: rest →
    ∃ name c more, rest = name ++ ';' :: more ∧ Spelling.value.Denotes name c

variable {raw front cs ds : List Char} {c : Char}

theorem unescape?_of_unescapes (h : Unescapes raw ds) : unescape? raw = some ds := by
  induction h with
  | nil => rw [unescape?]
  | literal hc _ ih => rw [unescape?_cons _ hc, ih, Option.map_some]
  | reference hname _ ih =>
    rw [unescape?_reference (splitReference_append _ hname.inReference)
      (Spelling.resolve?_eq_some_iff.mpr hname), ih, Option.map_some]

theorem unescapes_of_unescape? (h : unescape? raw = some ds) : Unescapes raw ds := by
  fun_induction unescape? raw generalizing ds with
  | case1 =>
    obtain rfl := Option.some.inj h
    exact .nil
  | case2 => contradiction
  | case3 cs name rest hsplit ih =>
    obtain ⟨c, hc, behind, hbehind, heq⟩ := by simpa [Option.bind_eq_some_iff] using h
    subst heq
    rw [eq_of_splitReference hsplit]
    exact .reference (Spelling.resolve?_eq_some_iff.mp hc) (ih hbehind)
  | case4 c cs hc ih =>
    obtain ⟨behind, hbehind, rfl⟩ := Option.map_eq_some_iff.mp h
    exact .literal hc (ih hbehind)

/-- **A value unescapes to what is read for it**, and to nothing else. -/
theorem unescape?_eq_some_iff : unescape? raw = some ds ↔ Unescapes raw ds :=
  ⟨unescapes_of_unescape?, unescape?_of_unescapes⟩

/-- What a value ends with is resolvable if the value is. -/
theorem Resolvable.of_suffix (h : Resolvable raw) (hcs : cs <:+ raw) : Resolvable cs := by
  obtain ⟨front, rfl⟩ := hcs
  intro before rest heq
  exact h (front ++ before) rest (by rw [heq, List.append_assoc])

theorem Resolvable.append (h : Resolvable cs) (hfront : '&' ∉ front) :
    Resolvable (front ++ cs) := by
  intro before rest heq
  obtain ⟨mid, hmid⟩ := List.exists_of_append_eq hfront heq
  exact h mid rest hmid

theorem resolvable_of_unescapes (h : Unescapes raw ds) : Resolvable raw := by
  induction h with
  | nil => simp [Resolvable]
  | literal hc _ ih => exact ih.append (List.mem_singleton.not.mpr hc.symm)
  | @reference name cs _ _ hname _ ih =>
    have hamp : '&' ∉ name ++ [';'] := by
      rw [List.mem_append, List.mem_singleton]
      rintro (hmem | hmem)
      · exact (hname.inReference _ hmem).2.1 rfl
      · contradiction
    intro front rest heq
    cases front with
    | nil => exact ⟨name, _, cs, (List.cons.inj heq).2.symm, hname⟩
    | cons d front => exact ih.append hamp front rest (by simpa using (List.cons.inj heq).2)

theorem exists_unescapes (h : Resolvable raw) : ∃ ds, Unescapes raw ds := by
  induction hlength : raw.length using Nat.strongRecOn generalizing raw with
  | ind n ih =>
    cases raw with
    | nil => exact ⟨[], .nil⟩
    | cons c cs =>
      rw [List.length_cons] at hlength
      by_cases hc : c = '&'
      · subst hc
        obtain ⟨name, d, more, rfl, hname⟩ := h [] cs rfl
        have hsuffix : more <:+ '&' :: (name ++ ';' :: more) :=
          ⟨'&' :: (name ++ [';']), by simp⟩
        have hlt : more.length < n := by
          rw [List.length_append, List.length_cons] at hlength
          omega
        obtain ⟨ds, hds⟩ := ih more.length hlt (h.of_suffix hsuffix) rfl
        exact ⟨d :: ds, .reference hname hds⟩
      · obtain ⟨ds, hds⟩ := ih cs.length (by omega) (h.of_suffix (List.suffix_cons c cs)) rfl
        exact ⟨c :: ds, .literal hc hds⟩

/-- **A value can be unescaped when every `&` in it begins a reference.** -/
theorem exists_unescapes_iff : (∃ ds, Unescapes raw ds) ↔ Resolvable raw :=
  ⟨fun ⟨_, h⟩ => resolvable_of_unescapes h, exists_unescapes⟩

theorem resolvable_iff_isSome : Resolvable raw ↔ (unescape? raw).isSome = true := by
  simp only [← exists_unescapes_iff, Option.isSome_iff_exists, unescape?_eq_some_iff]

instance : DecidablePred Resolvable := fun _ => decidable_of_iff' _ resolvable_iff_isSome

/-- A value that can be unescaped is read for what it unescapes to, and for nothing else. -/
theorem unescapes_iff_eq_attributeValue (h : Resolvable raw) :
    Unescapes raw ds ↔ ds = attributeValue raw := by
  obtain ⟨es, hes⟩ := exists_unescapes h
  rw [← unescape?_eq_some_iff] at hes ⊢
  rw [attributeValue, hes, Option.some_inj, Option.getD_some, eq_comm]

/-- A value that cannot be unescaped stays as it is written. -/
theorem attributeValue_of_not_resolvable (h : ¬ Resolvable raw) : attributeValue raw = raw := by
  rw [resolvable_iff_isSome, Option.not_isSome_iff_eq_none] at h
  rw [attributeValue, h, Option.getD_none]

end DocMarkdown.Markup
