import DocMarkdown.Proofs.Markup.Extension
import DocMarkdown.Proofs.Markup.Whole

/-!
# Proofs/Markup/Seam — a text that is parted between its tokens

A text can be taken apart where a token ends, or within running text, and something else put between
the two parts.  What has been read of the front then stays as it is: its tokens end by themselves,
and only the running text that it ends with may go on (`Parted.exists_seam`).
-/

namespace DocMarkdown.Markup

namespace Reading

/-! ## From tokens to the text -/

/-- A first token has been read. -/
theorem exists_read_of_tokens {cs : List Char} {t : Token} {ts : List Token}
    (h : (of cs).tokens = t :: ts) :
    ∃ c inner rest, cs = t.source ++ rest ∧ t.source = c :: inner ∧ t.IsWhole ∧ t.Meets rest ∧
      of cs = (of rest).cons t ∧ (of rest).tokens = ts := by
  rcases cs with _ | ⟨c, cs⟩
  · simp at h
  · rcases hread : Token.read c cs with f | ⟨s, rest⟩
    · simp [of_cons_of_fault hread] at h
    · have hof := of_cons_of_read hread
      rw [hof] at h
      obtain ⟨rfl, rfl⟩ := List.cons.inj h
      obtain ⟨inner, hsource, rfl⟩ := Token.eq_of_read hread
      exact ⟨c, inner, rest, by rw [hsource, List.cons_append], hsource,
        Token.isWhole_of_read hread, Token.meets_of_read hread, hof, rfl⟩

/-- **Tokens that a text begins with are its front**, and what follows is read by itself. -/
theorem exists_rest_of_tokens {cs : List Char} {ts us : List Token}
    (h : (of cs).tokens = ts ++ us) :
    ∃ rest, cs = ts.flatMap Token.source ++ rest ∧ of cs = (of rest).prepend ts ∧
      (of rest).tokens = us := by
  induction ts generalizing cs with
  | nil => exact ⟨cs, rfl, rfl, h⟩
  | cons t ts ih =>
    obtain ⟨-, -, rest, rfl, -, -, -, hof, hrest⟩ := exists_read_of_tokens h
    obtain ⟨more, rfl, hread, hmore⟩ := ih hrest
    exact ⟨more, by rw [List.flatMap_cons, List.append_assoc], hof.trans (congrArg (cons t) hread),
      hmore⟩

/-- **Every token of a text is whole.** -/
theorem isWhole_of_mem_tokens {cs : List Char} {t : Token} (h : t ∈ (of cs).tokens) :
    t.IsWhole := by
  obtain ⟨ts, us, htokens⟩ := List.append_of_mem h
  obtain ⟨rest, -, -, hrest⟩ := exists_rest_of_tokens htokens
  obtain ⟨-, -, -, -, -, hwhole, -⟩ := exists_read_of_tokens hrest
  exact hwhole

/-- **Running text is one token**: no two stand side by side. -/
theorem tokens_ne_of_texts {cs p q : List Char} {ts us : List Token} :
    (of cs).tokens ≠ ts ++ .text p :: .text q :: us := by
  intro h
  obtain ⟨rest, -, -, hrest⟩ := exists_rest_of_tokens h
  obtain ⟨-, -, behind, -, -, -, hmeets, -, hbehind⟩ := exists_read_of_tokens hrest
  obtain ⟨c, inner, more, rfl, hq, hwhole, -⟩ := exists_read_of_tokens hbehind
  obtain rfl : q = c :: inner := hq
  have hliteral := hwhole.2 c List.mem_cons_self
  rw [hmeets p rfl c rfl] at hliteral
  contradiction

/-- The tokens beside running text are of other kinds. -/
theorem apart_of_tokens {cs content : List Char} {ts us : List Token}
    (h : (of cs).tokens = ts ++ .text content :: us) :
    (∀ p, ts.getLast? ≠ some (.text p)) ∧ ∀ p, us.head? ≠ some (.text p) := by
  refine ⟨fun p hp => ?_, fun p hp => ?_⟩
  · obtain ⟨front, rfl⟩ := List.getLast?_eq_some_iff.mp hp
    rw [List.append_assoc] at h
    exact tokens_ne_of_texts h
  · obtain ⟨behind, rfl⟩ := List.head?_eq_some_iff.mp hp
    exact tokens_ne_of_texts h

/-! ## More text behind tokens -/

/-- **Tokens are read alike whatever stands behind them**, if running text at their end ends
there. -/
theorem prepend_of_tokens {cs : List Char} {ts us : List Token} (h : (of cs).tokens = ts ++ us)
    {more : List Char} (hmore : ∀ t ∈ ts.getLast?, t.Meets more) :
    of (ts.flatMap Token.source ++ more) = (of more).prepend ts := by
  induction ts generalizing cs with
  | nil => rfl
  | cons t ts ih =>
    obtain ⟨-, -, rest, rfl, -, hwhole, hmeets, -, hrest⟩ := exists_read_of_tokens h
    have hbehind : t.Meets (ts.flatMap Token.source ++ more) := by
      rcases ts with _ | ⟨s, ts⟩
      · exact hmore t rfl
      · -- the next token begins as it did, and that is all that counts
        obtain ⟨c, inner, after, rfl, hsource, -⟩ := exists_read_of_tokens hrest
        simpa [Token.Meets, Token.BeginsNoText, hsource] using hmeets
    have hts : of (ts.flatMap Token.source ++ more) = (of more).prepend ts := by
      refine ih hrest fun s hs => hmore s ?_
      rw [List.getLast?_cons, Option.mem_def.mp hs]
      rfl
    rw [List.flatMap_cons, List.append_assoc, of_source hwhole hbehind, hts]
    rfl

/-- **A text without a fault is read alike whatever stands behind it**, if that is no running
text. -/
theorem of_append {cs more : List Char} (h : (of cs).fault? = none)
    (hmore : Token.BeginsNoText more) : of (cs ++ more) = (of more).prepend (of cs).tokens := by
  have hall : (of cs).tokens = (of cs).tokens ++ [] := (List.append_nil _).symm
  have hof := prepend_of_tokens hall fun _ _ _ _ => hmore
  rwa [flatMap_source_of h] at hof

/-- The front of a text that some of its tokens are has these tokens. -/
theorem of_flatMap_source {cs : List Char} {ts us : List Token}
    (h : (of cs).tokens = ts ++ us) : of (ts.flatMap Token.source) = ⟨ts, none⟩ := by
  have hnil : Token.BeginsNoText [] := Token.beginsNoText_dropWhile []
  have hof : of (ts.flatMap Token.source ++ []) = (of []).prepend ts :=
    prepend_of_tokens h fun _ _ _ _ => hnil
  rwa [List.append_nil, of_nil, prepend_mk_none, List.append_nil] at hof

/-! ## Two parts

A text is parted between two tokens or within running text.  Both are one case when running text has
a left and a right side, of which either may be empty.  Text that ends or begins at the place is
taken into the sides first (`Parted.exists_seam`), so that whatever is put there meets no running
text but that of the sides. -/

/-- The token that a piece of running text is, if there is anything of it. -/
def runningText (cs : List Char) : List Token :=
  if cs = [] then [] else [.text cs]

theorem flatMap_source_runningText (cs : List Char) :
    (runningText cs).flatMap Token.source = cs := by
  unfold runningText
  split
  · next h => exact h.symm
  · exact List.flatMap_singleton _ _

/-- **A text is parted** behind its front: some tokens stand before the place and some after it, and
running text that it goes through has a left and a right side. -/
structure Parted (cs front : List Char) (before : List Token) (left right : List Char)
    (after : List Token) : Prop where
  tokens : (of cs).tokens = before ++ (runningText (left ++ right) ++ after)
  front : front = before.flatMap Token.source ++ left

/-- **What two parts have of their tokens**: behind the tokens `ts`, which the front has for itself,
running text goes over from `left` to `right`, and the tokens `us` follow. -/
structure Seam (front behind : List Char) (ts : List Token) (left right : List Char)
    (us : List Token) : Prop where
  literal : ∀ c ∈ left ++ right, Token.isLiteral c = true
  prepend : ∀ more, of (front ++ more) = (of (left ++ more)).prepend ts
  behind : ∃ rest, behind = right ++ rest ∧ (of rest).tokens = us ∧ Token.BeginsNoText rest

variable {front behind left right : List Char} {before after : List Token}

/-- A place is a seam when all running text around it is taken together. -/
theorem Parted.seam (h : Parted (front ++ behind) front before left right after)
    (hlast : ∀ content, before.getLast? ≠ some (.text content))
    (hfirst : ∀ content, after.head? ≠ some (.text content)) :
    Seam front behind before left right after := by
  refine ⟨fun c hc => ?_, fun more => ?_, ?_⟩
  · have htext : Token.text (left ++ right) ∈ (of (front ++ behind)).tokens := by
      rw [h.tokens, runningText, if_neg (List.ne_nil_of_mem hc)]
      simp
    exact (isWhole_of_mem_tokens htext).2 c hc
  · rw [h.front, List.append_assoc]
    exact prepend_of_tokens h.tokens fun t ht content heq => absurd (heq ▸ ht) (hlast content)
  · have htokens := h.tokens
    rw [← List.append_assoc] at htokens
    obtain ⟨rest, hcs, -, hrest⟩ := exists_rest_of_tokens htokens
    rw [List.flatMap_append, flatMap_source_runningText, ← List.append_assoc, ← h.front,
      List.append_assoc] at hcs
    refine ⟨rest, List.append_cancel_left hcs, hrest, fun c hc => ?_⟩
    obtain ⟨more, rfl⟩ := List.head?_eq_some_iff.mp hc
    -- running text would be the first token
    refine Bool.eq_false_iff.mpr fun hliteral => hfirst (c :: more.takeWhile Token.isLiteral) ?_
    rw [← hrest, of_literal more hliteral]
    rfl

/-- A place within running text, or beside it, is a seam. -/
theorem seam_of_text {ts us : List Token} {l r : List Char}
    (h : (of (front ++ behind)).tokens = ts ++ .text (l ++ r) :: us)
    (hfront : front = ts.flatMap Token.source ++ l) :
    Seam front behind ts l r us ∧ runningText (l ++ r) = [.text (l ++ r)] := by
  have hmem : Token.text (l ++ r) ∈ (of (front ++ behind)).tokens := by
    rw [h]
    simp
  have htext : runningText (l ++ r) = [.text (l ++ r)] := if_neg (isWhole_of_mem_tokens hmem).1
  have hparted : Parted (front ++ behind) front ts l r us := ⟨by rw [htext, h]; rfl, hfront⟩
  exact ⟨hparted.seam (apart_of_tokens h).1 (apart_of_tokens h).2, htext⟩

/-- **Every place where a text is parted is a seam.**  Running text that ends or begins right there
belongs to it. -/
theorem Parted.exists_seam (h : Parted (front ++ behind) front before left right after) :
    ∃ ts mid l r us, Seam front behind ts l r us ∧ before = ts ++ mid ∧
      (∀ t ∈ mid, ∃ content, t = .text content) ∧
      runningText (l ++ r) ++ us = mid ++ (runningText (left ++ right) ++ after) ∧
      (l = left ∧ r = right ∨ l = [] ∨ r = []) := by
  have htokens := h.tokens
  have hfront := h.front
  by_cases hnil : left ++ right = []
  · obtain ⟨rfl, rfl⟩ := List.append_eq_nil_iff.mp hnil
    by_cases hlast : ∃ p, before.getLast? = some (.text p)
    · -- running text ends here
      obtain ⟨p, hp⟩ := hlast
      obtain ⟨ts, rfl⟩ := List.getLast?_eq_some_iff.mp hp
      have hp' : (of (front ++ behind)).tokens = ts ++ .text (p ++ []) :: after := by
        simp [htokens, runningText]
      obtain ⟨hseam, htext⟩ := seam_of_text hp' (by rw [hfront]; simp [Token.source])
      exact ⟨ts, [.text p], p, [], after, hseam, rfl, by simp, by rw [htext, List.append_nil]; rfl,
        .inr (.inr rfl)⟩
    · by_cases hfirst : ∃ q, after.head? = some (.text q)
      · -- running text begins here
        obtain ⟨q, hq⟩ := hfirst
        obtain ⟨us, rfl⟩ := List.head?_eq_some_iff.mp hq
        obtain ⟨hseam, htext⟩ := seam_of_text htokens hfront
        exact ⟨before, [], [], q, us, hseam, by simp, by simp, by rw [htext]; rfl, .inr (.inl rfl)⟩
      · exact ⟨before, [], [], [], after, h.seam (not_exists.mp hlast) (not_exists.mp hfirst),
          by simp, by simp, rfl, .inl ⟨rfl, rfl⟩⟩
  · rw [runningText, if_neg hnil] at htokens
    obtain ⟨hseam, -⟩ := seam_of_text htokens hfront
    exact ⟨before, [], left, right, after, hseam, by simp, by simp, rfl, .inl ⟨rfl, rfl⟩⟩

end Reading

end DocMarkdown.Markup
