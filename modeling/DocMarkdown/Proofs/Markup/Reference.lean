import DocMarkdown.Markup.Reference
import DocMarkdown.Proofs.Text.Numeral

/-!
# Proofs/Markup/Reference — which character a reference denotes

A reference **denotes** a character by one of five names, or by a numeral of its number behind `#`
(`Spelling.Denotes`).  Reading finds that character and no other (`resolve?_eq_some_iff`), so
running text has it in the reference's place, and the reference itself where it denotes none
(`referenceText_of_denotes`).  A sign before the digits is passed over in running text, though no
numeral has one (`referenceText_of_signed`).
-/

namespace DocMarkdown.Markup

open Text (Base)

/-! ## What a reference denotes

Running text and values admit different numerals: a capital mark, zero, and a sign count in running
text only.  One relation serves for both, with `Spelling` for a parameter. -/

/-- The characters that have a name. -/
def namedCharacters : List (String × Char) :=
  [("lt", '<'), ("gt", '>'), ("amp", '&'), ("apos", '\''), ("quot", '"')]

namespace Spelling

/-- **A mark announces digits of a base**: none decimal ones, and an `x` hexadecimal ones. -/
inductive Announces (spelling : Spelling) : Base → List Char → Prop
  | decimal : spelling.Announces .decimal []
  | hexadecimal : spelling.Announces .hexadecimal ['x']
  | capital : spelling.capital = true → spelling.Announces .hexadecimal ['X']

/-- The number of a character counts, unless it is zero and zero does not. -/
def Admits (spelling : Spelling) (c : Char) : Prop :=
  spelling.null = true ∨ c.toNat ≠ 0

/-- **A reference denotes a character**: its name is the character's, or a numeral of the
character's number. -/
inductive Denotes (spelling : Spelling) : List Char → Char → Prop
  | named {name : List Char} {c : Char} : (String.ofList name, c) ∈ namedCharacters →
      spelling.Denotes name c
  | numbered {base : Base} {mark digits : List Char} {c : Char} : spelling.Announces base mark →
      base.Spells digits c.toNat → spelling.Admits c → spelling.Denotes ('#' :: (mark ++ digits)) c
  | signed {base : Base} {mark digits : List Char} {c : Char} : spelling.sign = true →
      spelling.Announces base mark → base.Spells digits c.toNat → spelling.Admits c →
      spelling.Denotes ('#' :: (mark ++ '+' :: digits)) c

/-- The spellings of running text, but for the sign. -/
def plain : Spelling :=
  { text with sign := false }

end Spelling

/-! ## What is read

Reading takes off the mark, then a sign, and takes the rest for digits.  As no numeral begins with a
mark or a sign (`head?_of_spells`), it takes off just what was put before the digits. -/

theorem named?_eq_some_iff {name : List Char} {c : Char} :
    named? name = some c ↔ (String.ofList name, c) ∈ namedCharacters := by
  have hname : ∀ s : String, String.ofList name = s ↔ name = s.toList := fun s => by
    rw [← String.toList_inj, String.toList_ofList]
  simp only [namedCharacters, List.mem_cons, Prod.mk.injEq, hname, List.not_mem_nil, or_false]
  unfold named?
  grind

theorem scalar?_eq_some_iff {n : Nat} {c : Char} : scalar? n = some c ↔ c.toNat = n := by
  unfold scalar?
  constructor
  · intro h
    split at h
    · next hn =>
      rw [← Option.some.inj h, Char.ofNat, dif_pos hn]
      rfl
    · contradiction
  · rintro rfl
    have hvalid : c.toNat.isValidChar := c.valid
    rw [if_pos hvalid, Char.ofNat_toNat]

namespace Spelling

variable {spelling : Spelling} {base : Base} {mark digits cs name : List Char} {c : Char}

/-- A numeral begins with no mark and no sign. -/
theorem head?_of_spells {n : Nat} (h : base.Spells digits n) :
    ∀ c ∈ digits.head?, c ≠ 'x' ∧ c ≠ 'X' ∧ c ≠ '+' := by
  intro c hc
  have hmem := List.mem_of_mem_head? hc
  refine ⟨?_, ?_, ?_⟩ <;> rintro rfl <;> refine h.notMem ?_ hmem <;> cases base <;> rfl

/-- Behind its mark, what begins with no mark is read in its base. -/
theorem base_append (h : spelling.Announces base mark)
    (hcs : ∀ c ∈ cs.head?, c ≠ 'x' ∧ c ≠ 'X') : spelling.base (mark ++ cs) = (base, cs) := by
  cases h with
  | decimal =>
    rw [List.nil_append]
    unfold Spelling.base
    split
    · exact absurd rfl (hcs _ rfl).1
    · exact absurd rfl (hcs _ rfl).2
    · rfl
  | hexadecimal => rfl
  | capital hcapital => exact if_pos hcapital

theorem exists_of_base (spelling : Spelling) (cs : List Char) :
    ∃ mark, spelling.Announces (spelling.base cs).1 mark ∧ cs = mark ++ (spelling.base cs).2 := by
  unfold Spelling.base
  split
  · exact ⟨['x'], .hexadecimal, rfl⟩
  · split
    · next hcapital => exact ⟨['X'], .capital hcapital, rfl⟩
    · exact ⟨[], .decimal, rfl⟩
  · exact ⟨[], .decimal, rfl⟩

theorem unsigned_of_head? (h : ∀ c ∈ cs.head?, c ≠ '+') : spelling.unsigned cs = cs := by
  unfold Spelling.unsigned
  split
  · exact absurd rfl (h _ rfl)
  · rfl

theorem unsigned_eq (spelling : Spelling) (cs : List Char) :
    spelling.unsigned cs = cs ∨
      spelling.sign = true ∧ cs = '+' :: spelling.unsigned cs := by
  unfold Spelling.unsigned
  split
  · split
    · next hsign => exact .inr ⟨hsign, rfl⟩
    · exact .inl rfl
  · exact .inl rfl

theorem numbered?_eq_some_iff : spelling.numbered? cs = some c ↔
    (spelling.base cs).1.Spells (spelling.unsigned (spelling.base cs).2) c.toNat ∧
      spelling.Admits c := by
  unfold Spelling.numbered?
  simp only [← Text.Base.value?_eq_some_iff, Option.bind_eq_bind, Option.bind_eq_some_iff,
    Option.ite_none_left_eq_some, scalar?_eq_some_iff, Admits]
  constructor
  · rintro ⟨n, hvalue, hnull, rfl⟩
    exact ⟨hvalue, by grind⟩
  · rintro ⟨hvalue, hadmits⟩
    exact ⟨c.toNat, hvalue, by grind, rfl⟩

theorem denotes_of_numbered? (h : spelling.numbered? cs = some c) :
    spelling.Denotes ('#' :: cs) c := by
  obtain ⟨hspells, hadmits⟩ := numbered?_eq_some_iff.mp h
  obtain ⟨mark, hmark, hcs⟩ := exists_of_base spelling cs
  rw [hcs]
  rcases unsigned_eq spelling (spelling.base cs).2 with heq | ⟨hsign, heq⟩
  · exact .numbered hmark (heq ▸ hspells) hadmits
  · rw [heq]
    exact .signed hsign hmark hspells hadmits

theorem numbered?_of_spells (hmark : spelling.Announces base mark)
    (hspells : base.Spells digits c.toNat) (hadmits : spelling.Admits c) :
    spelling.numbered? (mark ++ digits) = some c := by
  have hhead := head?_of_spells hspells
  refine numbered?_eq_some_iff.mpr ⟨?_, hadmits⟩
  rw [base_append hmark fun d hd => ⟨(hhead d hd).1, (hhead d hd).2.1⟩,
    unsigned_of_head? fun d hd => (hhead d hd).2.2]
  exact hspells

theorem numbered?_of_signed (hsign : spelling.sign = true) (hmark : spelling.Announces base mark)
    (hspells : base.Spells digits c.toNat) (hadmits : spelling.Admits c) :
    spelling.numbered? (mark ++ '+' :: digits) = some c := by
  refine numbered?_eq_some_iff.mpr ⟨?_, hadmits⟩
  rw [base_append hmark (by rintro d ⟨rfl⟩; decide), Spelling.unsigned, if_pos hsign]
  exact hspells

/-- No name begins with a number sign. -/
theorem resolve?_of_named (h : (String.ofList name, c) ∈ namedCharacters) :
    spelling.resolve? name = some c := by
  have hname := named?_eq_some_iff.mpr h
  unfold resolve?
  split
  · simp [named?] at hname
  · exact hname

/-- **A reference is resolved to the character that it denotes**, and only if it denotes one. -/
theorem resolve?_eq_some_iff : spelling.resolve? name = some c ↔ spelling.Denotes name c := by
  constructor
  · intro h
    unfold resolve? at h
    split at h
    · exact denotes_of_numbered? h
    · exact .named (named?_eq_some_iff.mp h)
  · intro h
    cases h with
    | named hname => exact resolve?_of_named hname
    | numbered hmark hspells hadmits => exact numbered?_of_spells hmark hspells hadmits
    | signed hsign hmark hspells hadmits => exact numbered?_of_signed hsign hmark hspells hadmits

/-- A spelling that has both marks has those of every other. -/
theorem Announces.of_capital {wide : Spelling} (h : spelling.Announces base mark)
    (hwide : wide.capital = true) : wide.Announces base mark := by
  cases h with
  | decimal => exact .decimal
  | hexadecimal => exact .hexadecimal
  | capital => exact .capital hwide

/-- **Running text admits every spelling.** -/
theorem Denotes.text (h : spelling.Denotes name c) : Spelling.text.Denotes name c := by
  cases h with
  | named hname => exact .named hname
  | numbered hmark hspells => exact .numbered (hmark.of_capital rfl) hspells (.inl rfl)
  | signed _ hmark hspells => exact .signed rfl (hmark.of_capital rfl) hspells (.inl rfl)

end Spelling

/-! ## In running text -/

section RunningText

open Spelling (plain)

variable {name : List Char} {c : Char}

theorem referenceText_eq_singleton (h : Spelling.text.Denotes name c) :
    referenceText name = [c] := by
  rw [referenceText, Spelling.resolve?_eq_some_iff.mpr h]

theorem referenceText_of_not_denotes (h : ∀ c, ¬ Spelling.text.Denotes name c) :
    referenceText name = '&' :: (name ++ [';']) := by
  have hnone : Spelling.text.resolve? name = none :=
    Option.eq_none_iff_forall_ne_some.mpr fun c hc => h c (Spelling.resolve?_eq_some_iff.mp hc)
  rw [referenceText, hnone]

/-- **What a reference is in running text**: the character that it denotes, whichever way its number
is spelled, also with a sign before the digits; and itself as it is written, where it denotes
none. -/
theorem referenceText_of_denotes (name : List Char) :
    (∀ c, plain.Denotes name c → referenceText name = [c]) ∧
    (∀ (c : Char) base mark zeros, plain.Announces base mark →
      referenceText ('#' :: (mark ++ (List.replicate zeros '0' ++
        Nat.toDigits base.size c.toNat))) = [c]) ∧
    (∀ (c : Char) base mark digits, plain.Announces base mark → base.Spells digits c.toNat →
      referenceText ('#' :: (mark ++ '+' :: digits)) = [c]) ∧
    ((∀ c, ¬ plain.Denotes name c) →
      (∀ (c : Char) base mark digits, plain.Announces base mark → base.Spells digits c.toNat →
        name ≠ '#' :: (mark ++ '+' :: digits)) →
      referenceText name = '&' :: (name ++ [';'])) := by
  refine ⟨fun c h => referenceText_eq_singleton h.text, ?_, ?_, fun hplain hsigned => ?_⟩
  · intro c base mark zeros hmark
    have hspells := base.spells_toDigits zeros c.toNat
    exact referenceText_eq_singleton (.numbered (hmark.of_capital rfl) hspells (.inl rfl))
  · intro c base mark digits hmark hspells
    exact referenceText_eq_singleton (.signed rfl (hmark.of_capital rfl) hspells (.inl rfl))
  · refine referenceText_of_not_denotes ?_
    rintro c (hname | ⟨hmark, hspells, -⟩ | ⟨-, hmark, hspells, -⟩)
    · exact hplain c (.named hname)
    · exact hplain c (.numbered (hmark.of_capital rfl) hspells (.inl rfl))
    · exact hsigned c _ _ _ (hmark.of_capital rfl) hspells rfl

/-- **A sign is passed over in running text.**  No numeral has one, and a value keeps the
reference. -/
theorem referenceText_of_signed :
    let name := "#+65".toList
    (∀ c, ¬ plain.Denotes name c) ∧ referenceText name = ['A'] ∧
      attributeValue "&#+65;".toList = "&#+65;".toList := by
  refine ⟨fun c h => ?_, rfl, by decide +kernel⟩
  rw [← Spelling.resolve?_eq_some_iff] at h
  contradiction

end RunningText

end DocMarkdown.Markup
