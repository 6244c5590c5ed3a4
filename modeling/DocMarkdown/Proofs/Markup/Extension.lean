import DocMarkdown.Proofs.Markup.Reread
import Mathlib.Data.List.TakeWhile

/-!
# Proofs/Markup/Extension — a text with more text behind it

Every construct ends with characters of its own, so what has been read as a token is read as the
same token when the text goes on (`Token.read_extend`).  Running text alone has no end of its own:
at the end of a text, more of it may follow.  A text that is read without a fault therefore begins
every longer text with the same tokens, up to the running text that it ends with
(`Reading.exists_prepend_of`).
-/

namespace DocMarkdown.Text

/-- **A cut stays where it is** when the text goes on. -/
theorem cut_extend {mark cs before after : List Char} (more : List Char)
    (h : cut mark cs = some (before, after)) :
    cut mark (cs ++ more) = some (before, after ++ more) := by
  induction cs generalizing before with
  | nil =>
    rw [cut] at h
    split at h
    · next hmark =>
      subst hmark
      cases h
      cases more <;> rfl
    · contradiction
  | cons c cs ih =>
    have hlength : mark.length ≤ (c :: cs).length := by
      rw [eq_of_cut h]
      simp only [List.length_append]
      omega
    -- the mark is no longer than the text, so it is found in it or not at all
    have hprefix : mark.isPrefixOf (c :: cs ++ more) = mark.isPrefixOf (c :: cs) := by
      rw [Bool.eq_iff_iff, List.isPrefixOf_iff_prefix, List.isPrefixOf_iff_prefix]
      exact ⟨fun hp => List.prefix_of_prefix_length_le hp (List.prefix_append _ _) hlength,
        fun hp => hp.trans (List.prefix_append _ _)⟩
    rw [List.cons_append] at hprefix
    rw [cut] at h
    rw [List.cons_append, cut, hprefix]
    split at h
    · next hp =>
      simp only [Option.some.injEq, Prod.mk.injEq] at h
      obtain ⟨rfl, rfl⟩ := h
      rw [if_pos hp, ← List.cons_append, List.drop_append_of_le_length hlength]
    · next hp =>
      obtain ⟨⟨b, a⟩, hcut, heq⟩ := Option.map_eq_some_iff.mp h
      obtain ⟨rfl, rfl⟩ := Prod.mk.inj heq
      rw [if_neg hp, ih hcut]
      rfl

end DocMarkdown.Text

namespace DocMarkdown.Markup

/-- A reference ends where it does when the text goes on. -/
theorem splitReference_extend {cs name rest : List Char} (more : List Char)
    (h : splitReference cs = some (name, rest)) :
    splitReference (cs ++ more) = some (name, rest ++ more) := by
  induction cs generalizing name with
  | nil => contradiction
  | cons c cs ih =>
    rw [splitReference] at h
    rw [List.cons_append, splitReference]
    split at h
    · next hc =>
      cases h
      rw [if_pos hc]
    · next hc =>
      split at h
      · contradiction
      · next hc' =>
        obtain ⟨⟨n, r⟩, hsplit, heq⟩ := Option.map_eq_some_iff.mp h
        obtain ⟨rfl, rfl⟩ := Prod.mk.inj heq
        rw [if_neg hc, if_neg hc', ih hsplit]
        rfl

/-! ## One token

Each reader ends at a mark, or where its rule gives out, and both come before what is added.  An
error may be told differently for the longer text, which can well close what the shorter one left
open; so only reads that succeed are compared. -/

namespace Token

variable {cs rest : List Char} {t : Token}

theorem readTo_extend {mark : List Char} {make : List Char → Token} {error error' : LexicalError}
    (more : List Char) (h : readTo mark make error cs = .ok (t, rest)) :
    readTo mark make error' (cs ++ more) = .ok (t, rest ++ more) := by
  rw [readTo] at h
  split at h
  · next hcut =>
    cases h
    rw [readTo, Text.cut_extend more hcut]
  · contradiction

theorem readTag_extend {make : List Char → Token} (more : List Char)
    (h : readTag make cs = .ok (t, rest)) : readTag make (cs ++ more) = .ok (t, rest ++ more) := by
  rw [readTag] at h
  split at h
  · next hclosed =>
    cases h
    rw [readTag, extent_append_of_closed more hclosed]
  · contradiction
  · contradiction

theorem readDoctype_extend (more : List Char) (h : readDoctype cs = .ok (t, rest)) :
    readDoctype (cs ++ more) = .ok (t, rest ++ more) := by
  rw [readDoctype, Doctype.reach] at h
  split at h
  · contradiction
  · next body _ hclosed =>
    rw [readDoctype, Doctype.reach, extent_append_of_closed more hclosed]
    simp only
    split at h
    · contradiction
    · next hkeyword =>
      split at h
      · contradiction
      · next hname =>
        cases h
        rw [if_neg hkeyword, if_neg hname]

theorem readBang_extend (more : List Char) (h : readBang cs = .ok (t, rest)) :
    readBang (cs ++ more) = .ok (t, rest ++ more) := by
  unfold readBang at h
  split at h
  · exact readTo_extend more h
  · exact readTo_extend more h
  · contradiction
  · contradiction
  · exact readDoctype_extend more h
  · exact readDoctype_extend more h
  · contradiction

theorem readMarkup_extend (more : List Char) (h : readMarkup cs = .ok (t, rest)) :
    readMarkup (cs ++ more) = .ok (t, rest ++ more) := by
  unfold readMarkup at h
  split at h
  · exact readBang_extend more h
  · contradiction
  · next cs hgt =>
    obtain ⟨content, rfl, hcs⟩ := eq_of_readTo h
    rw [List.cons_append, readMarkup]
    · exact readTo_extend more h
    · -- an instruction is not closed at once, and no more text can do that to it
      intro ds heq
      rcases cs with _ | ⟨c, cs⟩
      · simp at hcs
      · obtain ⟨rfl, -⟩ := List.cons.inj heq
        exact hgt cs rfl
  · exact readTag_extend more h
  · next hbang _ hquestion hslash =>
    obtain ⟨content, -, hcs⟩ := eq_of_readTag h
    rcases cs with _ | ⟨c, cs⟩
    · simp at hcs
    · have hc : c ≠ '!' ∧ c ≠ '?' ∧ c ≠ '/' :=
        ⟨fun heq => hbang cs (heq ▸ rfl), fun heq => hquestion cs (heq ▸ rfl),
          fun heq => hslash cs (heq ▸ rfl)⟩
      rw [List.cons_append, readMarkup_eq_readTag _ hc, ← List.cons_append]
      exact readTag_extend more h

/-- **A token is read alike when the text goes on**, unless it is running text that the text ends
with. -/
theorem read_extend {c : Char} (more : List Char) (h : read c cs = .ok (t, rest))
    (hrest : isLiteral c = true → rest ≠ []) : read c (cs ++ more) = .ok (t, rest ++ more) := by
  rw [read] at h ⊢
  split at h
  · next hlt =>
    rw [if_pos hlt]
    exact readMarkup_extend more h
  · next hlt =>
    rw [if_neg hlt]
    split at h
    · next hamp =>
      rw [if_pos hamp]
      rw [readReference] at h ⊢
      split at h
      · next hsplit =>
        cases h
        rw [splitReference_extend more hsplit]
      · contradiction
    · next hamp =>
      rw [if_neg hamp]
      cases h
      have hne : cs.dropWhile isLiteral ≠ [] := hrest (by simp [isLiteral, hlt, hamp])
      have hlength : (cs.takeWhile isLiteral).length ≠ cs.length := by
        intro hlength
        have happend := congrArg List.length (List.takeWhile_append_dropWhile (p := isLiteral)
          (l := cs))
        rw [List.length_append, hlength] at happend
        exact hne (List.length_eq_zero_iff.mp (by omega))
      rw [List.takeWhile_append, if_neg hlength, List.dropWhile_append,
        if_neg (by simpa using hne)]

end Token

/-! ## All tokens

A reading is taken apart behind some of its tokens: the rest is read by itself, and its fault is put
further back (`prepend`).  Running text at the very end is left with the rest, as it may go on. -/

namespace Reading

/-- More tokens before the others. -/
def prepend (ts : List Token) (reading : Reading) : Reading :=
  ts.foldr cons reading

@[simp] theorem tokens_prepend (ts : List Token) (reading : Reading) :
    (reading.prepend ts).tokens = ts ++ reading.tokens := by
  induction ts with
  | nil => rfl
  | cons t ts ih => exact congrArg (t :: ·) ih

/-- More text before a fault puts its place further back. -/
theorem fault?_prepend (ts : List Token) (reading : Reading) :
    (reading.prepend ts).fault? = reading.fault?.map fun f =>
      { f with offset := Text.width (ts.flatMap Token.source) + f.offset } := by
  induction ts with
  | nil => simp [prepend]
  | cons t ts ih =>
    have hcons : (reading.prepend (t :: ts)).fault? = (reading.prepend ts).fault?.map fun f =>
      { f with offset := t.size + f.offset } := rfl
    rw [hcons, ih, Option.map_map]
    refine congrArg (Option.map · reading.fault?) (funext fun f => ?_)
    simp [Token.size, Nat.add_assoc]

@[simp] theorem fault?_prepend_eq_none_iff {ts : List Token} {reading : Reading} :
    (reading.prepend ts).fault? = none ↔ reading.fault? = none := by
  rw [fault?_prepend, Option.map_eq_none_iff]

theorem prepend_mk_none (ts us : List Token) :
    (Reading.mk us none).prepend ts = ⟨ts ++ us, none⟩ := by
  induction ts with
  | nil => rfl
  | cons t ts ih => exact congrArg (cons t) ih

/-- Running text is one token, if it is any. -/
theorem of_eq_of_isLiteral {cs : List Char} (h : ∀ c ∈ cs, Token.isLiteral c = true) :
    of cs = ⟨if cs = [] then [] else [.text cs], none⟩ := by
  rcases cs with _ | ⟨c, cs⟩
  · exact of_nil
  · obtain ⟨hc, hcs⟩ := List.forall_mem_cons.mp h
    rw [of_literal cs hc, List.dropWhile_eq_nil_iff.mpr hcs, List.takeWhile_eq_self_iff.mpr hcs,
      of_nil]
    rfl

/-- **Every longer text begins with the tokens of a text**, up to the running text that it ends
with. -/
theorem exists_prepend_of {cs : List Char} (h : (of cs).fault? = none) :
    ∃ ts final, (∀ c ∈ final, Token.isLiteral c = true) ∧
      ∀ more, of (cs ++ more) = (of (final ++ more)).prepend ts := by
  induction hn : cs.length using Nat.strongRecOn generalizing cs with
  | ind n ih =>
    subst hn
    rcases cs with _ | ⟨c, cs⟩
    · exact ⟨[], [], by simp, fun more => rfl⟩
    rcases hread : Token.read c cs with f | ⟨t, rest⟩
    · rw [of_cons_of_fault hread] at h
      contradiction
    by_cases hfinal : ∀ d ∈ c :: cs, Token.isLiteral d = true
    · exact ⟨[], c :: cs, hfinal, fun more => rfl⟩
    · -- the first token ends before the text does, and what follows it is shorter
      have hrest : Token.isLiteral c = true → rest ≠ [] := by
        rintro hc rfl
        rw [Token.read_of_isLiteral cs hc] at hread
        have hall := List.dropWhile_eq_nil_iff.mp (Prod.mk.inj (Except.ok.inj hread)).2
        exact hfinal (List.forall_mem_cons.mpr ⟨hc, hall⟩)
      have hlength := Token.length_rest_le_of_read hread
      rw [of_cons_of_read hread] at h
      obtain ⟨ts, final, hfinal, hof⟩ := ih rest.length (by rw [List.length_cons]; omega)
        (Option.map_eq_none_iff.mp h) rfl
      refine ⟨t :: ts, final, hfinal, fun more => ?_⟩
      rw [List.cons_append, of_cons_of_read (Token.read_extend more hread hrest), hof]
      rfl

end Reading

end DocMarkdown.Markup
