import DocMarkdown.Markup.Token
import DocMarkdown.Proofs.Foundations
import DocMarkdown.Proofs.Markup.Written

/-!
# Proofs/Markup/Reread — a token is read back from its source

`Token.source` writes a token, and `Reading.of` finds it again at the front of any text: what stands
behind a token does not change where it ends.  Each kind of token asks for one thing, that its
content does not end it early: a tag keeps its `>` in quotes, a section does not hold the mark that
closes it, the name of a reference has no `;`.
-/

namespace DocMarkdown.Text

/-! ## Cutting at a mark that is there -/

/-- A cut at a mark that is at the front. -/
theorem cut_append_self {mark : List Char} (rest : List Char) (h : mark ≠ []) :
    cut mark (mark ++ rest) = some ([], rest) := by
  obtain ⟨c, cs, rfl⟩ := List.exists_cons_of_ne_nil h
  have hp : (c :: cs).isPrefixOf (c :: (cs ++ rest)) = true :=
    List.isPrefixOf_iff_prefix.mpr (List.prefix_append (c :: cs) rest)
  rw [List.cons_append, cut, if_pos hp, ← List.cons_append, List.drop_left]

/-- **A cut finds its mark behind a content without it.** -/
theorem cut_append_mark (front : List Char) (last : Char) {content : List Char} (rest : List Char)
    (hlast : last ∉ front) (h : ¬ front ++ [last] <:+: content) :
    cut (front ++ [last]) (content ++ (front ++ [last]) ++ rest) = some (content, rest) := by
  induction content with
  | nil => exact cut_append_self rest (by simp)
  | cons c cs ih =>
    have hcs : ¬ front ++ [last] <:+: cs := fun hi =>
      h (hi.trans (List.suffix_cons c cs).isInfix)
    have hp : ¬ front ++ [last] <+: c :: cs ++ (front ++ [last]) ++ rest := fun hp =>
      h (List.infix_of_prefix_append hlast (List.cons_ne_nil c cs) hp)
    simp only [List.cons_append] at hp ⊢
    rw [cut, if_neg (mt List.isPrefixOf_iff_prefix.mp hp), ih hcs]
    rfl

end DocMarkdown.Text

namespace DocMarkdown.Markup

/-! ## References -/

/-- **A reference ends at its semicolon.** -/
theorem splitReference_append {name : List Char} (rest : List Char)
    (h : ∀ c ∈ name, c ≠ ';' ∧ c ≠ '&' ∧ c ≠ '<') :
    splitReference (name ++ ';' :: rest) = some (name, rest) := by
  induction name with
  | nil => rfl
  | cons c cs ih =>
    obtain ⟨hsemi, hamp, hlt⟩ := h c List.mem_cons_self
    rw [List.cons_append, splitReference, if_neg hsemi, if_neg (by simp [hamp, hlt]),
      ih fun d hd => h d (List.mem_cons_of_mem _ hd)]
    rfl

namespace Token

/-! ## Tags

Whether a `>` ends a tag depends on the quotes before it.  A written tag is therefore followed quote
by quote: its names have none, its values stand between two of one kind and have none of that kind,
and so the tag ends outside of quotes. -/

theorem extent_append {σ : Type} {rule : σ → Char → Option σ} {s t : σ} {cs : List Char}
    (ds : List Char) (h : extent rule s cs = .unclosed t) {u : σ}
    (hu : extent rule t ds = .unclosed u) : extent rule s (cs ++ ds) = .unclosed u := by
  rw [extent_append_of_unclosed ds h, hu]

/-- Characters outside quotes that neither open quotes nor end the tag. -/
theorem extent_tagRule_plain {cs : List Char}
    (h : ∀ c ∈ cs, c ≠ '>' ∧ c ≠ '\'' ∧ c ≠ '"') :
    extent readTag.tagRule none cs = .unclosed none := by
  induction cs with
  | nil => rfl
  | cons c cs ih =>
    obtain ⟨hgt, hsingle, hdouble⟩ := h c List.mem_cons_self
    have hrule : readTag.tagRule none c = some none := by
      simp [readTag.tagRule, hgt, Quote.after, Quote.ofChar?, hsingle, hdouble]
    simp only [extent, hrule, ih fun d hd => h d (List.mem_cons_of_mem _ hd), Extent.cons]

/-- Characters between quotes. -/
theorem extent_tagRule_quoted (q : Quote) {cs : List Char} (h : q.char ∉ cs) :
    extent readTag.tagRule (some q) cs = .unclosed (some q) := by
  induction cs with
  | nil => rfl
  | cons c cs ih =>
    have hc : c ≠ q.char := fun heq => h (heq ▸ List.mem_cons_self)
    have hrule : readTag.tagRule (some q) c = some (some q) := by
      simp [readTag.tagRule, Quote.after, hc]
    simp only [extent, hrule, ih fun hmem => h (List.mem_cons_of_mem _ hmem), Extent.cons]

theorem extent_tagRule_isName {cs : List Char} (h : IsName cs) :
    extent readTag.tagRule none cs = .unclosed none :=
  extent_tagRule_plain fun c hc =>
    ⟨ne_of_isNameChar (h.2 c hc) (by decide), ne_of_isNameChar (h.2 c hc) (by decide),
      ne_of_isNameChar (h.2 c hc) (by decide)⟩

theorem extent_tagRule_writeAttributes {as : List (String × String)}
    (h : ∀ a ∈ as, IsName a.1.toList) :
    extent readTag.tagRule none (writeAttributes as) = .unclosed none := by
  induction as with
  | nil => rfl
  | cons a as ih =>
    have hkey := extent_tagRule_isName (h a List.mem_cons_self)
    have hvalue := extent_tagRule_quoted .double (quote_not_mem_escapeValue a.2.toList)
    have hrest := ih fun b hb => h b (List.mem_cons_of_mem _ hb)
    have hbehind : extent readTag.tagRule (some .double) ('"' :: writeAttributes as)
        = .unclosed none := by
      simp [extent, readTag.tagRule, Quote.after, Quote.char, hrest, Extent.cons]
    have hfrom : extent readTag.tagRule none
        ('=' :: '"' :: (escapeValue a.2.toList ++ '"' :: writeAttributes as)) = .unclosed none := by
      simp [extent, readTag.tagRule, Quote.after, Quote.ofChar?,
        extent_append _ hvalue hbehind, Extent.cons]
    have hwrite : writeAttributes (a :: as) = [' '] ++ (a.1.toList ++
        '=' :: '"' :: (escapeValue a.2.toList ++ '"' :: writeAttributes as)) := by
      simp [writeAttributes, writeAttribute]
    rw [hwrite]
    exact extent_append _ (by decide) (extent_append _ hkey hfrom)

theorem extent_tagRule_writeTag {name : List Char} {as : List (String × String)}
    (hname : IsName name) (h : ∀ a ∈ as, IsName a.1.toList) :
    extent readTag.tagRule none (writeTag name as) = .unclosed none :=
  extent_append _ (extent_tagRule_isName hname) (extent_tagRule_writeAttributes h)

/-- **A tag ends at the first `>` outside its quotes.** -/
theorem readTag_append (make : List Char → Token) {content : List Char} (rest : List Char)
    (h : extent readTag.tagRule none content = .unclosed none) :
    readTag make (content ++ '>' :: rest) = .ok (make content, rest) := by
  have hclose : extent readTag.tagRule none ('>' :: rest) = .closed [] rest := rfl
  rw [readTag, extent_append_of_unclosed _ h, hclose]
  simp only [List.append_nil]

/-- What begins with no other construct is a tag. -/
theorem readMarkup_eq_readTag {c : Char} (cs : List Char) (hc : c ≠ '!' ∧ c ≠ '?' ∧ c ≠ '/') :
    readMarkup (c :: cs) = readTag ofContent (c :: cs) := by
  unfold readMarkup
  split <;> simp_all

/-! ## Running text -/

/-- **Running text reaches to the next markup.** -/
theorem read_of_isLiteral {c : Char} (cs : List Char) (h : isLiteral c = true) :
    read c cs = .ok (text (c :: cs.takeWhile isLiteral), cs.dropWhile isLiteral) := by
  simp only [isLiteral, Bool.and_eq_true, bne_iff_ne] at h
  rw [read, if_neg h.1, if_neg h.2]

end Token

/-! ## At the front of a text -/

namespace Reading

theorem of_literal {c : Char} (cs : List Char) (h : Token.isLiteral c = true) :
    of (c :: cs)
      = (of (cs.dropWhile Token.isLiteral)).cons (.text (c :: cs.takeWhile Token.isLiteral)) :=
  of_cons_of_read (Token.read_of_isLiteral cs h)

theorem of_reference {name : List Char} (rest : List Char)
    (h : ∀ c ∈ name, c ≠ ';' ∧ c ≠ '&' ∧ c ≠ '<') :
    of ('&' :: (name ++ ';' :: rest)) = (of rest).cons (.reference name) := by
  refine of_cons_of_read ?_
  rw [Token.read, if_neg (by decide), if_pos rfl, Token.readReference,
    splitReference_append rest h]

theorem of_cdata {content : List Char} (rest : List Char) (h : ¬ [']', ']', '>'] <:+: content) :
    of ((Token.cdata content).source ++ rest) = (of rest).cons (.cdata content) := by
  have hcut : Text.cut [']', ']', '>'] (content ++ [']', ']', '>'] ++ rest)
      = some (content, rest) :=
    Text.cut_append_mark [']', ']'] '>' rest (by simp) h
  have hread : Token.read '<' ('!' :: '[' :: 'C' :: 'D' :: 'A' :: 'T' :: 'A' :: '[' ::
      (content ++ [']', ']', '>'] ++ rest)) = .ok (.cdata content, rest) := by
    simp only [Token.read, if_true, Token.readMarkup, Token.readBang, Token.readTo, hcut]
  exact of_cons_of_read hread

theorem of_comment {content : List Char} (rest : List Char) (h : ¬ ['-', '-', '>'] <:+: content) :
    of ((Token.comment content).source ++ rest) = (of rest).cons (.comment content) := by
  have hcut : Text.cut ['-', '-', '>'] (content ++ ['-', '-', '>'] ++ rest)
      = some (content, rest) :=
    Text.cut_append_mark ['-', '-'] '>' rest (by simp) h
  have hread : Token.read '<' ('!' :: '-' :: '-' :: (content ++ ['-', '-', '>'] ++ rest))
      = .ok (.comment content, rest) := by
    simp only [Token.read, if_true, Token.readMarkup, Token.readBang, Token.readTo, hcut]
  exact of_cons_of_read hread

theorem of_instruction {content : List Char} (rest : List Char) (hfirst : content.head? ≠ some '>')
    (h : ¬ ['?', '>'] <:+: content) :
    of ((Token.instruction content).source ++ rest) = (of rest).cons (.instruction content) := by
  have hcut : Text.cut ['?', '>'] (content ++ ['?', '>'] ++ rest) = some (content, rest) :=
    Text.cut_append_mark ['?'] '>' rest (by simp) h
  have hread : Token.read '<' ('?' :: (content ++ ['?', '>'] ++ rest))
      = .ok (.instruction content, rest) := by
    rw [Token.read, if_pos rfl, Token.readMarkup, Token.readTo, hcut]
    -- a `>` right behind the `<?` would end it before it has begun
    intro ds heq
    rcases content with _ | ⟨c, cs⟩
    · simp at heq
    · rw [List.cons_append, List.cons_append] at heq
      exact hfirst (by rw [List.head?_cons, (List.cons.inj heq).1])
  exact of_cons_of_read hread

/-- A tag that is no end tag: what stands at its front begins no other construct. -/
theorem of_tag {c : Char} {content : List Char} (rest : List Char) (hhead : content.head? = some c)
    (hc : c ≠ '!' ∧ c ≠ '?' ∧ c ≠ '/')
    (h : extent Token.readTag.tagRule none content = .unclosed none) :
    of ('<' :: (content ++ '>' :: rest)) = (of rest).cons (Token.ofContent content) := by
  have hread := Token.readTag_append Token.ofContent rest h
  obtain ⟨cs, rfl⟩ := List.head?_eq_some_iff.mp hhead
  refine of_cons_of_read ?_
  rw [Token.read, if_pos rfl, ← hread]
  exact Token.readMarkup_eq_readTag _ hc

theorem of_endTag {content : List Char} (rest : List Char)
    (h : extent Token.readTag.tagRule none content = .unclosed none) :
    of ('<' :: '/' :: (content ++ '>' :: rest)) = (of rest).cons (.endTag content) := by
  refine of_cons_of_read ?_
  rw [Token.read, if_pos rfl]
  exact Token.readTag_append Token.endTag rest h

/-- **A written tag is read back.** -/
theorem of_startTag {name : List Char} {as : List (String × String)} (rest : List Char)
    (hname : IsName name) (h : ∀ a ∈ as, IsName a.1.toList) :
    of ('<' :: (writeTag name as ++ '>' :: rest))
      = (of rest).cons (.startTag (writeTag name as)) := by
  obtain ⟨c, hhead, hc⟩ := exists_head?_writeTag as hname
  have hmake : Token.ofContent (writeTag name as) = .startTag (writeTag name as) := by
    rw [Token.ofContent, if_neg (getLast?_writeTag_ne as hname)]
  rw [← hmake]
  exact of_tag rest hhead hc (Token.extent_tagRule_writeTag hname h)

/-- **A written tag with a slash behind it is read back** as an empty tag. -/
theorem of_emptyTag {name : List Char} {as : List (String × String)} (rest : List Char)
    (hname : IsName name) (h : ∀ a ∈ as, IsName a.1.toList) :
    of ('<' :: (writeTag name as ++ ['/', '>'] ++ rest))
      = (of rest).cons (.emptyTag (writeTag name as)) := by
  obtain ⟨c, hhead, hc⟩ := exists_head?_writeTag as hname
  have hslash : (writeTag name as ++ ['/']).head? = some c := by
    rw [List.head?_append, hhead]
    rfl
  have hmake : Token.ofContent (writeTag name as ++ ['/']) = .emptyTag (writeTag name as) := by
    rw [Token.ofContent, if_pos List.getLast?_concat, List.dropLast_concat]
  have hextent : extent Token.readTag.tagRule none (writeTag name as ++ ['/']) = .unclosed none :=
    Token.extent_append ['/'] (Token.extent_tagRule_writeTag hname h) rfl
  have hread := of_tag rest hslash hc hextent
  rw [hmake] at hread
  rw [← hread]
  simp

end Reading

end DocMarkdown.Markup
