import DocMarkdown.Proofs.Markup.Reread

/-!
# Proofs/Markup/Whole — what a token can hold

A construct ends where it can for the first time, so the content of a token holds nothing that would
have ended it before: a token is then **whole**.  Every token that is read is whole
(`Token.isWhole_of_read`), and a whole token is read back from its source whatever stands behind it
(`Reading.of_source`), but for running text, which ends where other markup begins.
-/

namespace DocMarkdown.Text

/-- **A cut is made at the first mark**: there is none before it. -/
theorem not_infix_of_cut {mark cs before after : List Char} (hmark : mark ≠ [])
    (h : cut mark cs = some (before, after)) : ¬ mark <:+: before := by
  induction cs generalizing before with
  | nil =>
    rw [cut, if_neg hmark] at h
    contradiction
  | cons c cs ih =>
    rw [cut] at h
    split at h
    · obtain ⟨rfl, -⟩ := Prod.mk.inj (Option.some.inj h)
      exact fun hinfix => hmark (List.infix_nil.mp hinfix)
    · next hprefix =>
      obtain ⟨⟨b, a⟩, hcut, heq⟩ := Option.map_eq_some_iff.mp h
      obtain ⟨rfl, rfl⟩ := Prod.mk.inj heq
      intro hinfix
      rcases List.infix_cons_iff.mp hinfix with hfirst | hrest
      · -- a mark at the front would have been found there
        refine hprefix (List.isPrefixOf_iff_prefix.mpr (hfirst.trans ?_))
        rw [eq_of_cut hcut, List.append_assoc]
        exact List.prefix_append (c :: b) _
      · exact ih hcut hrest

end DocMarkdown.Text

namespace DocMarkdown.Markup

/-- **The body of a closed extent leaves it open**, and one more character closes it. -/
theorem exists_unclosed_of_extent_closed {σ : Type} {rule : σ → Char → Option σ} {s : σ}
    {cs body rest : List Char} (h : extent rule s cs = .closed body rest) :
    ∃ last c, extent rule s body = .unclosed last ∧ rule last c = none ∧
      cs = body ++ c :: rest := by
  induction cs generalizing s body with
  | nil => contradiction
  | cons c cs ih =>
    rw [extent] at h
    split at h
    · next hc =>
      cases h
      exact ⟨s, c, rfl, hc, rfl⟩
    · next next hc =>
      rcases hextent : extent rule next cs with ⟨b, r⟩ | last
      · rw [hextent, Extent.cons] at h
        cases h
        obtain ⟨last, d, hbody, hd, rfl⟩ := ih hextent
        exact ⟨last, d, by simp only [extent, hc, hbody, Extent.cons], hd, rfl⟩
      · rw [hextent] at h
        contradiction

/-- A character that closes an open extent does so whatever stands behind it. -/
theorem extent_append_cons {σ : Type} {rule : σ → Char → Option σ} {s last : σ} {body : List Char}
    {c : Char} (rest : List Char) (h : extent rule s body = .unclosed last)
    (hc : rule last c = none) : extent rule s (body ++ c :: rest) = .closed body rest := by
  have hclose : extent rule last (c :: rest) = .closed [] rest := by rw [extent, hc]
  rw [extent_append_of_unclosed _ h, hclose]
  simp only [List.append_nil]

/-- The name of a reference does not hold what would end it. -/
theorem ne_of_splitReference {cs name rest : List Char}
    (h : splitReference cs = some (name, rest)) : ∀ c ∈ name, c ≠ ';' ∧ c ≠ '&' ∧ c ≠ '<' := by
  induction cs generalizing name with
  | nil => contradiction
  | cons c cs ih =>
    rw [splitReference] at h
    split at h
    · cases h
      simp
    · next hsemi =>
      split at h
      · contradiction
      · next hother =>
        obtain ⟨⟨n, r⟩, hsplit, heq⟩ := Option.map_eq_some_iff.mp h
        obtain ⟨rfl, rfl⟩ := Prod.mk.inj heq
        exact List.forall_mem_cons.mpr ⟨⟨hsemi, not_or.mp hother⟩, ih hsplit⟩

/-! ## Whole tokens -/

namespace Token

/-- **What stands behind a `<` begins a tag that is no end tag**, and no other construct. -/
def BeginsTag (cs : List Char) : Prop :=
  ∀ c ∈ cs.head?, c ≠ '!' ∧ c ≠ '?' ∧ c ≠ '/'

/-- **A token is whole**: what it holds does not end it early, nor make it a token of another
kind. -/
def IsWhole : Token → Prop
  | text content => content ≠ [] ∧ ∀ c ∈ content, isLiteral c = true
  | reference name => ∀ c ∈ name, c ≠ ';' ∧ c ≠ '&' ∧ c ≠ '<'
  | cdata content => ¬ [']', ']', '>'] <:+: content
  | comment content => ¬ ['-', '-', '>'] <:+: content
  | instruction content => content.head? ≠ some '>' ∧ ¬ ['?', '>'] <:+: content
  | doctype body => Doctype.hasKeyword body = true ∧ Doctype.isNameless body = false ∧
      ∃ last, extent Doctype.Region.rule (.head none) body = .unclosed last ∧ last.rule '>' = none
  | startTag content => BeginsTag content ∧ content.getLast? ≠ some '/' ∧
      extent readTag.tagRule none content = .unclosed none
  | emptyTag content => BeginsTag (content ++ ['/']) ∧
      extent readTag.tagRule none (content ++ ['/']) = .unclosed none
  | endTag content => extent readTag.tagRule none content = .unclosed none

/-! ## What is read is whole -/

section Read

variable {cs rest : List Char} {t : Token}

theorem not_infix_of_readTo {mark : List Char} {make : List Char → Token} {error : LexicalError}
    (hmark : mark ≠ []) (h : readTo mark make error cs = .ok (t, rest)) :
    ∃ content, t = make content ∧ cs = content ++ mark ++ rest ∧ ¬ mark <:+: content := by
  rw [readTo] at h
  split at h
  · next hcut =>
    cases h
    exact ⟨_, rfl, Text.eq_of_cut hcut, Text.not_infix_of_cut hmark hcut⟩
  · contradiction

theorem unclosed_of_readTag {make : List Char → Token} (h : readTag make cs = .ok (t, rest)) :
    ∃ content, t = make content ∧ cs = content ++ '>' :: rest ∧
      extent readTag.tagRule none content = .unclosed none := by
  rw [readTag] at h
  split at h
  · next hclosed =>
    cases h
    obtain ⟨last, c, hbody, hrule, rfl⟩ := exists_unclosed_of_extent_closed hclosed
    unfold readTag.tagRule at hrule
    split at hrule
    · next hend =>
      obtain ⟨rfl, rfl⟩ := hend
      exact ⟨_, rfl, rfl, hbody⟩
    · contradiction
  · contradiction
  · contradiction

theorem isWhole_of_readDoctype (h : readDoctype cs = .ok (t, rest)) : t.IsWhole := by
  rw [readDoctype, Doctype.reach] at h
  split at h
  · contradiction
  · next hclosed =>
    obtain ⟨last, c, hbody, hrule, -⟩ := exists_unclosed_of_extent_closed hclosed
    obtain rfl := Doctype.Region.eq_of_rule_eq_none hrule
    split at h
    · contradiction
    · next hkeyword =>
      split at h
      · contradiction
      · next hname =>
        cases h
        exact ⟨Bool.not_eq_false _ ▸ hkeyword, Bool.eq_false_iff.mpr hname, last, hbody, hrule⟩

theorem isWhole_of_readBang (h : readBang cs = .ok (t, rest)) : t.IsWhole := by
  unfold readBang at h
  split at h
  · obtain ⟨content, rfl, -, hcontent⟩ := not_infix_of_readTo (List.cons_ne_nil _ _) h
    exact hcontent
  · obtain ⟨content, rfl, -, hcontent⟩ := not_infix_of_readTo (List.cons_ne_nil _ _) h
    exact hcontent
  · contradiction
  · contradiction
  · exact isWhole_of_readDoctype h
  · exact isWhole_of_readDoctype h
  · contradiction

theorem isWhole_ofContent {content : List Char} (hbegins : BeginsTag content)
    (h : extent readTag.tagRule none content = .unclosed none) : (ofContent content).IsWhole := by
  rw [ofContent]
  split
  · next hlast =>
    obtain ⟨front, rfl⟩ := List.getLast?_eq_some_iff.mp hlast
    rw [List.dropLast_concat]
    exact ⟨hbegins, h⟩
  · next hlast => exact ⟨hbegins, hlast, h⟩

theorem isWhole_of_readMarkup (h : readMarkup cs = .ok (t, rest)) : t.IsWhole := by
  unfold readMarkup at h
  split at h
  · exact isWhole_of_readBang h
  · contradiction
  · next cs hgt =>
    obtain ⟨content, rfl, rfl, hcontent⟩ := not_infix_of_readTo (List.cons_ne_nil _ _) h
    refine ⟨fun hhead => ?_, hcontent⟩
    obtain ⟨more, rfl⟩ := List.head?_eq_some_iff.mp hhead
    exact hgt _ rfl
  · obtain ⟨content, rfl, -, hcontent⟩ := unclosed_of_readTag h
    exact hcontent
  · next hbang _ hquestion hslash =>
    obtain ⟨content, rfl, rfl, hcontent⟩ := unclosed_of_readTag h
    refine isWhole_ofContent (fun c hc => ?_) hcontent
    obtain ⟨more, rfl⟩ := List.head?_eq_some_iff.mp hc
    exact ⟨by rintro rfl; exact hbang _ rfl, by rintro rfl; exact hquestion _ rfl,
      by rintro rfl; exact hslash _ rfl⟩

/-- **Every token that is read is whole.** -/
theorem isWhole_of_read {c : Char} (h : read c cs = .ok (t, rest)) : t.IsWhole := by
  rw [read] at h
  split at h
  · exact isWhole_of_readMarkup h
  · next hlt =>
    split at h
    · rw [readReference] at h
      split at h
      · next hsplit =>
        cases h
        exact ne_of_splitReference hsplit
      · contradiction
    · next hamp =>
      cases h
      exact ⟨List.cons_ne_nil _ _, List.forall_mem_cons.mpr
        ⟨by simp [isLiteral, hlt, hamp], List.all_eq_true.mp List.all_takeWhile⟩⟩

end Read

/-! ## Where running text ends

Running text is the one token without an end of its own.  `Meets` asks of it, and of nothing else,
that what follows be no running text; so one statement can say for all tokens what may stand behind
them. -/

/-- No running text stands at the front. -/
def BeginsNoText (cs : List Char) : Prop :=
  ∀ c ∈ cs.head?, isLiteral c = false

theorem BeginsNoText.takeWhile_eq_nil {cs : List Char} (h : BeginsNoText cs) :
    cs.takeWhile isLiteral = [] := by
  rcases cs with _ | ⟨c, cs⟩
  · rfl
  · exact List.takeWhile_cons_of_neg (by simp [h c rfl])

theorem BeginsNoText.dropWhile_eq_self {cs : List Char} (h : BeginsNoText cs) :
    cs.dropWhile isLiteral = cs := by
  rcases cs with _ | ⟨c, cs⟩
  · rfl
  · exact List.dropWhile_cons_of_neg (by simp [h c rfl])

theorem beginsNoText_dropWhile (cs : List Char) : BeginsNoText (cs.dropWhile isLiteral) := by
  intro c hc
  obtain ⟨more, hmore⟩ := List.head?_eq_some_iff.mp hc
  exact List.not_of_dropWhile_eq_cons hmore

/-- Running text ends where the rest of a text begins; any other token ends by itself. -/
def Meets (t : Token) (rest : List Char) : Prop :=
  ∀ content, t = text content → BeginsNoText rest

/-- Where a token has been read, it meets what is left. -/
theorem meets_of_read {c : Char} {cs rest : List Char} {t : Token}
    (h : read c cs = .ok (t, rest)) : t.Meets rest := by
  rintro content rfl
  obtain ⟨inner, hsource, -⟩ := eq_of_read h
  obtain rfl : content = c :: inner := hsource
  have hc : isLiteral c = true := (isWhole_of_read h).2 c List.mem_cons_self
  rw [read_of_isLiteral cs hc] at h
  obtain ⟨-, rfl⟩ := Prod.mk.inj (Except.ok.inj h)
  exact beginsNoText_dropWhile cs

end Token

/-! ## What is whole is read back -/

namespace Reading

theorem of_isTag {content : List Char} (rest : List Char) (hbegins : Token.BeginsTag content)
    (h : extent Token.readTag.tagRule none content = .unclosed none) :
    of ('<' :: (content ++ '>' :: rest)) = (of rest).cons (Token.ofContent content) := by
  rcases content with _ | ⟨c, content⟩
  · refine of_cons_of_read ?_
    rw [Token.read, if_pos rfl, List.nil_append, Token.readMarkup_eq_readTag _ (by decide)]
    exact Token.readTag_append Token.ofContent rest h
  · exact of_tag rest rfl (hbegins c rfl) h

/-- The keyword of a declaration begins with its letter, in whichever case. -/
theorem exists_of_hasKeyword {body : List Char} (h : Doctype.hasKeyword body = true) :
    ∃ more, body = 'D' :: more ∨ body = 'd' :: more := by
  rcases body with _ | ⟨c, more⟩
  · exact absurd h (by decide)
  · have hupper : c.toUpper = 'D' := by
      simp only [Doctype.hasKeyword, List.take_succ_cons, List.map_cons, beq_iff_eq] at h
      exact (List.cons.inj h).1
    unfold Char.toUpper at hupper
    split at hupper
    · have hval := congrArg Char.val hupper
      have hc : c = 'd' := Char.ext (by simp at hval; grind)
      exact ⟨more, .inr (by rw [hc])⟩
    · exact ⟨more, .inl (by rw [hupper])⟩

theorem of_doctype {body : List Char} (rest : List Char) (h : (Token.doctype body).IsWhole) :
    of ('<' :: '!' :: (body ++ '>' :: rest)) = (of rest).cons (.doctype body) := by
  obtain ⟨hkeyword, hname, last, hbody, hrule⟩ := h
  have hdoctype : Token.readDoctype (body ++ '>' :: rest) = .ok (.doctype body, rest) := by
    rw [Token.readDoctype, Doctype.reach, extent_append_cons rest hbody hrule]
    simp [hkeyword, hname]
  refine of_cons_of_read ?_
  rw [Token.read, if_pos rfl, Token.readMarkup, ← hdoctype]
  obtain ⟨more, rfl | rfl⟩ := exists_of_hasKeyword hkeyword <;> rfl

/-- **A whole token is read back from its source**, whatever stands behind it. -/
theorem of_source {t : Token} {rest : List Char} (h : t.IsWhole) (hmeets : t.Meets rest) :
    of (t.source ++ rest) = (of rest).cons t := by
  cases t with
  | text content =>
    obtain ⟨hne, hliteral⟩ := h
    obtain ⟨c, cs, rfl⟩ := List.exists_cons_of_ne_nil hne
    obtain ⟨hc, hcs⟩ := List.forall_mem_cons.mp hliteral
    have hrest := hmeets _ rfl
    rw [Token.source, List.cons_append, of_literal _ hc, List.takeWhile_append_of_pos hcs,
      List.dropWhile_append_of_pos hcs, hrest.takeWhile_eq_nil, hrest.dropWhile_eq_self,
      List.append_nil]
  | reference name => simpa [Token.source] using of_reference rest h
  | cdata content => exact of_cdata rest h
  | comment content => exact of_comment rest h
  | instruction content => exact of_instruction rest h.1 h.2
  | doctype body => simpa [Token.source] using of_doctype rest h
  | startTag content =>
    obtain ⟨hbegins, hlast, hcontent⟩ := h
    have hmake : Token.ofContent content = .startTag content := by
      rw [Token.ofContent, if_neg hlast]
    rw [← hmake, ← of_isTag rest hbegins hcontent, hmake]
    simp [Token.source]
  | emptyTag content =>
    obtain ⟨hbegins, hcontent⟩ := h
    have hmake : Token.ofContent (content ++ ['/']) = .emptyTag content := by
      rw [Token.ofContent, if_pos List.getLast?_concat, List.dropLast_concat]
    rw [← hmake, ← of_isTag rest hbegins hcontent, hmake]
    simp [Token.source]
  | endTag content => simpa [Token.source] using of_endTag rest h

end Reading

end DocMarkdown.Markup
