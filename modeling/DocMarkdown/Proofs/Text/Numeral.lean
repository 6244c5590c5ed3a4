import DocMarkdown.Text.Numeral
import Mathlib.Data.List.Forall2
import Mathlib.Data.Nat.Digits.Defs

/-!
# Proofs/Text/Numeral — the numerals of a number

A numeral **spells** a number when its characters are digits and the number is theirs, the first
digit counting most (`Base.Spells`).  A text has a value just when it spells one
(`value?_eq_some_iff`), and every number is spelled by its digits, with as many zeros before them as
one likes (`spells_toDigits`).
-/

namespace DocMarkdown.Text.Base

/-! ## Digits -/

/-- **A character is a digit with a value**; a letter is one in either case. -/
def IsDigit (base : Base) (c : Char) (d : Nat) : Prop :=
  d < base.size ∧ (c = d.digitChar ∨ c = d.digitChar.toUpper)

instance (base : Base) (c : Char) (d : Nat) : Decidable (base.IsDigit c d) :=
  inferInstanceAs (Decidable (_ ∧ _))

variable {base : Base} {c : Char} {cs : List Char} {d n : Nat}

theorem one_lt_size (base : Base) : 1 < base.size := by
  cases base <;> decide

/-- No digit lies behind the small letters. -/
theorem toNat_lt_of_digit? (h : base.digit? c = some d) : c.toNat < 103 := by
  have hle : ∀ last : Char, c ≤ last → c.toNat ≤ last.toNat := fun _ h => h
  unfold digit? at h
  split at h
  · next hc => exact Nat.lt_of_le_of_lt (hle '9' hc.2) (by decide)
  · split at h
    · contradiction
    · split at h
      · next hc => exact Nat.lt_of_le_of_lt (hle 'f' hc.2) (by decide)
      · split at h
        · next hc => exact Nat.lt_of_le_of_lt (hle 'F' hc.2) (by decide)
        · contradiction

theorem digit?_eq_some_iff : base.digit? c = some d ↔ base.IsDigit c d := by
  constructor
  · intro h
    have hall : ∀ m < 103, ∀ d ∈ base.digit? (Char.ofNat m), base.IsDigit (Char.ofNat m) d := by
      cases base <;> decide +kernel
    simpa using hall c.toNat (toNat_lt_of_digit? h) d (by simpa using h)
  · rintro ⟨hd, hc⟩
    have hall : ∀ d < base.size, base.digit? d.digitChar = some d ∧
        base.digit? d.digitChar.toUpper = some d := by
      cases base <;> decide +kernel
    rcases hc with rfl | rfl
    · exact (hall d hd).1
    · exact (hall d hd).2

/-! ## Numerals

Digits are read from the left, and each moves those before it up.  `Nat.ofDigits` has the lowest
digit first, which is why `Spells` reverses them. -/

/-- **A numeral spells a number**: its characters are one or more digits, and the number is that of
their values. -/
def Spells (base : Base) (cs : List Char) (n : Nat) : Prop :=
  cs ≠ [] ∧ ∃ ds, List.Forall₂ base.IsDigit cs ds ∧ Nat.ofDigits base.size ds.reverse = n

/-- Digits behind others move them up. -/
theorem valueAfter?_eq_some_iff {m : Nat} :
    base.valueAfter? m cs = some n ↔ ∃ ds, List.Forall₂ base.IsDigit cs ds ∧
      base.size ^ ds.length * m + Nat.ofDigits base.size ds.reverse = n := by
  induction cs generalizing m with
  | nil => simp [valueAfter?, Nat.ofDigits_nil]
  | cons c cs ih =>
    have hplace : ∀ d ds, base.size ^ (d :: ds).length * m +
        Nat.ofDigits base.size (d :: ds).reverse
          = base.size ^ ds.length * (m * base.size + d) + Nat.ofDigits base.size ds.reverse := by
      intro d ds
      rw [List.reverse_cons, Nat.ofDigits_append, Nat.ofDigits_singleton, List.length_reverse,
        List.length_cons]
      ring
    simp only [valueAfter?, Option.bind_eq_some_iff, ih, digit?_eq_some_iff,
      List.forall₂_cons_left_iff]
    constructor
    · rintro ⟨d, hd, ds, hds, rfl⟩
      exact ⟨d :: ds, ⟨d, ds, hd, hds, rfl⟩, hplace d ds⟩
    · rintro ⟨_, ⟨d, ds, hd, hds, rfl⟩, rfl⟩
      exact ⟨d, hd, ds, hds, (hplace d ds).symm⟩

/-- **A text has a value just when it spells one.** -/
theorem value?_eq_some_iff : base.value? cs = some n ↔ base.Spells cs n := by
  cases cs with
  | nil => simp [value?, Spells]
  | cons c cs => simp [value?, Spells, valueAfter?_eq_some_iff]

/-- **A numeral holds nothing but digits.** -/
theorem Spells.notMem (h : base.Spells cs n) (hc : base.digit? c = none) : c ∉ cs := by
  obtain ⟨-, ds, hds, -⟩ := h
  induction hds with
  | nil => exact List.not_mem_nil
  | cons hd _ ih =>
    rw [← digit?_eq_some_iff] at hd
    refine List.not_mem_cons_of_ne_of_not_mem ?_ ih
    rintro rfl
    simp [hc] at hd

/-! ## Every number is spelled -/

theorem isDigit_digitChar (h : d < base.size) : base.IsDigit d.digitChar d :=
  ⟨h, .inl rfl⟩

theorem spells_singleton (h : base.IsDigit c d) : base.Spells [c] d :=
  ⟨by simp, [d], .cons h .nil, Nat.ofDigits_singleton⟩

/-- A digit more. -/
theorem Spells.concat (hn : base.Spells cs n) (hd : base.IsDigit c d) :
    base.Spells (cs ++ [c]) (n * base.size + d) := by
  obtain ⟨hne, ds, hds, rfl⟩ := hn
  refine ⟨by simp, ds ++ [d], List.rel_append hds (.cons hd .nil), ?_⟩
  rw [List.reverse_append, List.reverse_singleton, List.singleton_append, Nat.ofDigits_cons]
  ring

/-- A zero in front counts for nothing. -/
theorem Spells.zero_cons (hn : base.Spells cs n) : base.Spells ('0' :: cs) n := by
  obtain ⟨-, ds, hds, rfl⟩ := hn
  have hzero : base.IsDigit '0' 0 := isDigit_digitChar (Nat.lt_of_succ_lt base.one_lt_size)
  exact ⟨by simp, 0 :: ds, .cons hzero hds, by simp [Nat.ofDigits_append]⟩

/-- **Every number is spelled by its digits**, with any number of zeros before them. -/
theorem spells_toDigits (base : Base) (zeros n : Nat) :
    base.Spells (List.replicate zeros '0' ++ Nat.toDigits base.size n) n := by
  induction zeros with
  | succ zeros ih => exact ih.zero_cons
  | zero =>
    rw [List.replicate_zero, List.nil_append]
    induction n using Nat.strongRecOn with
    | ind n ih =>
      rw [Nat.toDigits_eq_if base.one_lt_size]
      split
      · next hlt => exact spells_singleton (isDigit_digitChar hlt)
      · next hge =>
        have hlt : n / base.size < n := by
          have hsize := base.one_lt_size
          exact Nat.div_lt_self (by omega) hsize
        have hmod := Nat.mod_lt n (Nat.lt_of_succ_lt base.one_lt_size)
        have hspells := (ih _ hlt).concat (isDigit_digitChar hmod)
        rwa [Nat.div_add_mod'] at hspells

end DocMarkdown.Text.Base
