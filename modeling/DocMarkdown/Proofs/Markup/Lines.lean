import DocMarkdown.Proofs.Markup.Whole
import DocMarkdown.Proofs.Text.LineEnd

/-!
# Proofs/Markup/Lines — tokens of a text with other line ends

A mark that has no line end in it is found where it was (`Text.cut_withLineEnd`), and a construct
whose rule takes CR and LF for the same reaches as far as it did (`extent_withLineEnd`): so each
reader reads the same token, with other line ends in its content.  The tokens of a text are then
those that it had (`Reading.of_withLineEnd`).

Only what succeeds is compared, by `Except.toOption`: an error may well be told at another place.
-/

namespace DocMarkdown.Text

variable (e : LineEnd) (cs : List Char)

/-- A mark without a line end in it is found where it was. -/
theorem isPrefixOf_withLineEnd {mark : List Char} (hmark : OneLine mark) :
    mark.isPrefixOf (withLineEnd e cs) = mark.isPrefixOf cs := by
  induction mark generalizing cs with
  | nil => rfl
  | cons m mark ih =>
    obtain ⟨hm, hmark⟩ := List.forall_mem_cons.mp hmark
    obtain ⟨hreturn, hfeed⟩ := ne_of_not_isLineEnd hm
    rcases cs with _ | ⟨c, cs⟩
    · rfl
    · by_cases hc : c = '\n'
      · subst hc
        cases e <;> simp [LineEnd.chars, List.isPrefixOf, beq_false_of_ne, hreturn, hfeed]
      · rw [withLineEnd_cons e cs hc, List.isPrefixOf, List.isPrefixOf, ih cs hmark]

/-- Where a mark does not begin, the cut is further behind. -/
theorem cut_cons_of_not_isPrefixOf {mark : List Char} {c : Char}
    (h : mark.isPrefixOf (c :: cs) = false) :
    cut mark (c :: cs) = (cut mark cs).map fun sides => (c :: sides.1, sides.2) := by
  rw [cut, if_neg (by simp [h])]

/-- **A cut goes through the same place**, if there is no line end in the mark. -/
theorem cut_withLineEnd {mark : List Char} (hne : mark ≠ []) (hmark : OneLine mark) :
    cut mark (withLineEnd e cs) = (cut mark cs).map fun sides =>
      (withLineEnd e sides.1, withLineEnd e sides.2) := by
  have hself : withLineEnd e mark = mark := withLineEnd_of_oneLine e hmark
  induction cs with
  | nil => simp [cut, hne]
  | cons c cs ih =>
    by_cases hprefix : mark.isPrefixOf (c :: cs) = true
    · obtain ⟨rest, hrest⟩ := List.isPrefixOf_iff_prefix.mp hprefix
      rw [← hrest, withLineEnd_append, hself, cut_append_self _ hne, cut_append_self _ hne]
      rfl
    · have hbehind := cut_cons_of_not_isPrefixOf cs (Bool.eq_false_iff.mpr hprefix)
      by_cases hc : c = '\n'
      · subst hc
        obtain ⟨m, mark, rfl⟩ := List.exists_cons_of_ne_nil hne
        obtain ⟨hreturn, hfeed⟩ := ne_of_not_isLineEnd (hmark m List.mem_cons_self)
        have hskip : ∀ {d : Char}, m ≠ d → ∀ ds, cut (m :: mark) (d :: ds)
            = (cut (m :: mark) ds).map fun sides => (d :: sides.1, sides.2) :=
          fun hd ds => cut_cons_of_not_isPrefixOf ds (by simp [List.isPrefixOf, hd])
        rw [hbehind, withLineEnd_feed]
        cases e <;> simp [LineEnd.chars, hskip hreturn, hskip hfeed, ih, Function.comp_def]
      · have hprefix' : mark.isPrefixOf (c :: withLineEnd e cs) = false := by
          rw [← withLineEnd_cons e cs hc, isPrefixOf_withLineEnd e _ hmark]
          exact Bool.eq_false_iff.mpr hprefix
        rw [withLineEnd_cons e cs hc, cut_cons_of_not_isPrefixOf _ hprefix', hbehind, ih]
        simp [Function.comp_def, withLineEnd_cons e _ hc]

end DocMarkdown.Text

namespace DocMarkdown.Markup

open Text (LineEnd withLineEnd withLineEnd_feed withLineEnd_cons withLineEnd_append)

variable (e : LineEnd)

/-! ## Constructs

A closing rule takes one step for each character, and two for a CR LF.  For a construct to reach as
far as it did, the rule has to come to the same state by a CR, by a LF, and by both (`LineBlind`).
The rules for tags and for document types do: a line end opens and closes nothing there. -/

/-- A reference ends at the same place. -/
theorem splitReference_withLineEnd (cs : List Char) :
    splitReference (withLineEnd e cs) = (splitReference cs).map fun parts =>
      (withLineEnd e parts.1, withLineEnd e parts.2) := by
  induction cs with
  | nil => rfl
  | cons c cs ih =>
    by_cases hc : c = '\n'
    · subst hc
      cases e <;> simp [LineEnd.chars, splitReference, ih, Function.comp_def]
    · rw [withLineEnd_cons e cs hc, splitReference, splitReference, ih]
      split
      · rfl
      · split
        · rfl
        · simp [Function.comp_def, withLineEnd_cons e _ hc]

section Extent

variable {σ : Type} {rule : σ → Char → Option σ}

/-- The extent of a construct with other line ends. -/
def Extent.withLineEnd (e : LineEnd) : Extent σ → Extent σ
  | closed body rest => closed (Text.withLineEnd e body) (Text.withLineEnd e rest)
  | unclosed last => unclosed last

/-- **A rule is blind to line ends**: it takes CR and LF for the same, and one line end for two. -/
def LineBlind (rule : σ → Char → Option σ) : Prop :=
  ∀ s, ∃ t, rule s '\r' = some t ∧ rule s '\n' = some t ∧ rule t '\n' = some t

/-- **A construct reaches as far as it did** under a rule that is blind to line ends. -/
theorem extent_withLineEnd (hrule : LineBlind rule) (s : σ) (cs : List Char) :
    extent rule s (withLineEnd e cs) = (extent rule s cs).withLineEnd e := by
  induction cs generalizing s with
  | nil => rfl
  | cons c cs ih =>
    by_cases hc : c = '\n'
    · subst hc
      obtain ⟨t, hreturn, hfeed, htwice⟩ := hrule s
      cases e <;> simp only [withLineEnd_feed, LineEnd.chars, List.cons_append, List.nil_append,
        extent, hreturn, hfeed, htwice, ih t] <;> cases extent rule t cs <;> rfl
    · rw [withLineEnd_cons e cs hc, extent, extent]
      split
      · rfl
      · next t _ =>
        rw [ih t]
        cases extent rule t cs with
        | closed body rest => simp only [Extent.withLineEnd, Extent.cons, withLineEnd_cons e _ hc]
        | unclosed last => rfl

theorem lineBlind_tagRule : LineBlind Token.readTag.tagRule := by
  rintro (_ | q)
  · exact ⟨none, rfl, rfl, rfl⟩
  · exact ⟨some q, by cases q <;> rfl, by cases q <;> rfl, by cases q <;> rfl⟩

/-- Nothing that has an end of its own begins with a line end in it. -/
theorem ofOpening_of_isLineEnd (seen : List Char) {c : Char} (hc : Text.isLineEnd c = true) :
    Doctype.Region.ofOpening seen c = .plain := by
  have hopenings : ∀ o ∈ Doctype.openings, Text.OneLine o := fun o ho =>
    Text.oneLine_of_all (List.all_eq_true.mp (rfl : (Doctype.openings.all
      (·.all (!Text.isLineEnd ·))) = true) o ho)
  have hnot : ∀ o ∈ Doctype.openings, ¬ (seen ++ [c]) <+: o := by
    intro o ho hprefix
    have hmem := hprefix.subset (List.mem_append_right seen List.mem_cons_self)
    rw [hopenings o ho c hmem] at hc
    contradiction
  have hself : seen ++ [c] ∉ Doctype.openings := fun h => hnot _ h (List.prefix_refl _)
  have hany : (Doctype.openings.any ((seen ++ [c]).isPrefixOf ·)) = false :=
    List.any_eq_false.mpr fun o ho => mt List.isPrefixOf_iff_prefix.mp (hnot o ho)
  have hgt : c ≠ '>' := by
    rintro rfl
    contradiction
  rw [Doctype.openings, List.mem_cons, List.mem_cons, not_or, not_or] at hself
  obtain ⟨hquestion, hdashes, hkeyword⟩ := hself
  simp only [Doctype.Region.ofOpening, if_neg hquestion, if_neg hdashes, if_neg hkeyword, hany,
    Bool.false_eq_true, if_false, if_neg hgt]

theorem lineBlind_regionRule : LineBlind Doctype.Region.rule := by
  intro s
  cases s with
  | head literal =>
    rcases literal with _ | q
    · exact ⟨.head none, rfl, rfl, rfl⟩
    · exact ⟨.head (some q), by cases q <;> rfl, by cases q <;> rfl, by cases q <;> rfl⟩
  | subset => exact ⟨.subset, rfl, rfl, rfl⟩
  | opening seen =>
    exact ⟨.plain, congrArg some (ofOpening_of_isLineEnd seen rfl),
      congrArg some (ofOpening_of_isLineEnd seen rfl), rfl⟩
  | instruction mark =>
    exact ⟨.instruction false, by cases mark <;> rfl, by cases mark <;> rfl, rfl⟩
  | comment dashes => exact ⟨.comment 0, rfl, rfl, rfl⟩
  | quoting literal =>
    rcases literal with _ | q
    · exact ⟨.quoting none, rfl, rfl, rfl⟩
    · exact ⟨.quoting (some q), by cases q <;> rfl, by cases q <;> rfl, by cases q <;> rfl⟩
  | plain => exact ⟨.plain, rfl, rfl, rfl⟩
  | tail => exact ⟨.tail, rfl, rfl, rfl⟩

end Extent

/-! ## One token

`restWithLineEnd` puts the other line ends into the token and into what follows it, so each lemma
says that reading goes on with what it would have gone on with. -/

/-- **A token with other line ends** in what it holds. -/
def Token.withLineEnd (e : LineEnd) : Token → Token
  | text content => text (Text.withLineEnd e content)
  | reference name => reference (Text.withLineEnd e name)
  | cdata content => cdata (Text.withLineEnd e content)
  | comment content => comment (Text.withLineEnd e content)
  | instruction content => instruction (Text.withLineEnd e content)
  | doctype content => doctype (Text.withLineEnd e content)
  | startTag content => startTag (Text.withLineEnd e content)
  | emptyTag content => emptyTag (Text.withLineEnd e content)
  | endTag content => endTag (Text.withLineEnd e content)

namespace Token

/-- A first token and what follows it, both with other line ends. -/
def restWithLineEnd (e : LineEnd) (read : Token × List Char) : Token × List Char :=
  (read.1.withLineEnd e, Text.withLineEnd e read.2)

variable {make : List Char → Token}

/-- What can be made of a content, can be made of it with other line ends. -/
def Makes (e : LineEnd) (make : List Char → Token) : Prop :=
  ∀ content, make (Text.withLineEnd e content) = (make content).withLineEnd e

theorem toOption_readTo {mark : List Char} (hne : mark ≠ [])
    (hmark : Text.OneLine mark) (hmake : Makes e make)
    (error error' : LexicalError) (cs : List Char) :
    (readTo mark make error' (Text.withLineEnd e cs)).toOption
      = (readTo mark make error cs).toOption.map (restWithLineEnd e) := by
  rw [readTo, readTo, Text.cut_withLineEnd e cs hne hmark]
  rcases Text.cut mark cs with _ | ⟨content, rest⟩
  · rfl
  · exact congrArg (fun t => some (t, Text.withLineEnd e rest)) (hmake content)

theorem toOption_readTag (hmake : Makes e make) (cs : List Char) :
    (readTag make (Text.withLineEnd e cs)).toOption
      = (readTag make cs).toOption.map (restWithLineEnd e) := by
  rw [readTag, readTag, extent_withLineEnd e lineBlind_tagRule]
  rcases extent readTag.tagRule none cs with ⟨content, rest⟩ | ⟨_ | q⟩
  · exact congrArg (fun t => some (t, Text.withLineEnd e rest)) (hmake content)
  · rfl
  · rfl

theorem getLast?_withLineEnd {content : List Char} :
    (Text.withLineEnd e content).getLast? = some '/' ↔ content.getLast? = some '/' := by
  rcases List.eq_nil_or_concat content with rfl | ⟨front, c, rfl⟩
  · rfl
  · rw [List.concat_eq_append, withLineEnd_append]
    by_cases hc : c = '\n'
    · subst hc
      cases e <;> simp [LineEnd.chars]
    · simp [withLineEnd_cons e [] hc]

theorem makes_ofContent : Makes e ofContent := by
  intro content
  rw [ofContent, ofContent]
  by_cases hlast : content.getLast? = some '/'
  · obtain ⟨front, rfl⟩ := List.getLast?_eq_some_iff.mp hlast
    have hslash : Text.withLineEnd e ['/'] = ['/'] := rfl
    rw [if_pos ((getLast?_withLineEnd e).mpr hlast), if_pos hlast, withLineEnd_append, hslash,
      List.dropLast_concat, List.dropLast_concat]
    rfl
  · rw [if_neg (mt (getLast?_withLineEnd e).mp hlast), if_neg hlast]
    rfl

/-! ### Declarations

What stands behind `<!` is told by a mark or a keyword, and all of these are of one line.  So the
same construct begins there, and behind it line ends are in the same places as before. -/

theorem length_of_keyword {word : List Char} (hword : word.map Char.toUpper = "DOCTYPE".toList) :
    word.length = 7 := by
  rw [← List.length_map Char.toUpper, hword]
  rfl

theorem hasKeyword_iff {body : List Char} : Doctype.hasKeyword body = true ↔
    ∃ word more, body = word ++ more ∧ word.map Char.toUpper = "DOCTYPE".toList := by
  rw [Doctype.hasKeyword, beq_iff_eq]
  constructor
  · intro h
    exact ⟨body.take 7, body.drop 7, (List.take_append_drop 7 body).symm, h⟩
  · rintro ⟨word, more, rfl, hword⟩
    rw [List.take_left' (length_of_keyword hword), hword]

/-- There is no line end within the keyword. -/
theorem oneLine_of_keyword {word : List Char}
    (hword : word.map Char.toUpper = "DOCTYPE".toList) : Text.OneLine word := by
  intro c hc
  have hupper : c.toUpper ∈ "DOCTYPE".toList := hword ▸ List.mem_map_of_mem hc
  have hreturn : c ≠ '\r' := by rintro rfl; exact absurd hupper (by decide)
  have hfeed : c ≠ '\n' := by rintro rfl; exact absurd hupper (by decide)
  simp [Text.isLineEnd, hreturn, hfeed]

theorem hasKeyword_withLineEnd (body : List Char) :
    Doctype.hasKeyword (Text.withLineEnd e body) = Doctype.hasKeyword body := by
  rw [Bool.eq_iff_iff, hasKeyword_iff, hasKeyword_iff]
  constructor
  · rintro ⟨word, more, hbody, hword⟩
    have hprefix : word.isPrefixOf (Text.withLineEnd e body) = true :=
      List.isPrefixOf_iff_prefix.mpr ⟨more, hbody.symm⟩
    rw [Text.isPrefixOf_withLineEnd e body (oneLine_of_keyword hword)] at hprefix
    obtain ⟨more', hmore⟩ := List.isPrefixOf_iff_prefix.mp hprefix
    exact ⟨word, more', hmore.symm, hword⟩
  · rintro ⟨word, more, rfl, hword⟩
    exact ⟨word, Text.withLineEnd e more,
      by rw [withLineEnd_append, Text.withLineEnd_of_oneLine e (oneLine_of_keyword hword)], hword⟩

theorem isNameless_withLineEnd {body : List Char} (h : Doctype.hasKeyword body = true) :
    Doctype.isNameless (Text.withLineEnd e body) = Doctype.isNameless body := by
  obtain ⟨word, more, rfl, hword⟩ := hasKeyword_iff.mp h
  have hself := Text.withLineEnd_of_oneLine e (oneLine_of_keyword hword)
  have hlength := length_of_keyword hword
  rw [Doctype.isNameless, Doctype.isNameless, withLineEnd_append, hself,
    List.drop_left' hlength, List.drop_left' hlength]
  exact Text.all_withLineEnd e more rfl

theorem toOption_readDoctype (cs : List Char) :
    (readDoctype (Text.withLineEnd e cs)).toOption
      = (readDoctype cs).toOption.map (restWithLineEnd e) := by
  rw [readDoctype, readDoctype, Doctype.reach, Doctype.reach,
    extent_withLineEnd e lineBlind_regionRule]
  rcases extent Doctype.Region.rule (.head none) cs with ⟨body, rest⟩ | last
  · simp only [Extent.withLineEnd, hasKeyword_withLineEnd]
    by_cases hkeyword : Doctype.hasKeyword body = true
    · have hnot : ¬ Doctype.hasKeyword body = false := by simp [hkeyword]
      rw [if_neg hnot, if_neg hnot, isNameless_withLineEnd e hkeyword]
      split <;> rfl
    · rw [if_pos (Bool.eq_false_iff.mpr hkeyword), if_pos (Bool.eq_false_iff.mpr hkeyword)]
      rfl
  · rfl

/-- Without the first letter of its keyword there is no declaration. -/
theorem toOption_readDoctype_of_ne {cs : List Char} (hupper : ∀ ds, cs ≠ 'D' :: ds)
    (hlower : ∀ ds, cs ≠ 'd' :: ds) : (readDoctype cs).toOption = none := by
  rcases hread : readDoctype cs with f | ⟨t, rest⟩
  · rfl
  · obtain ⟨body, rfl, rfl⟩ := eq_of_readDoctype hread
    obtain ⟨hkeyword, -⟩ := isWhole_of_readDoctype hread
    obtain ⟨more, rfl | rfl⟩ := Reading.exists_of_hasKeyword hkeyword
    · exact absurd rfl (hupper _)
    · exact absurd rfl (hlower _)

/-- The mark that begins a CDATA section, behind `<!`. -/
def cdataMark : List Char := ['[', 'C', 'D', 'A', 'T', 'A', '[']

/-- The mark that begins a comment, behind `<!`. -/
def commentMark : List Char := ['-', '-']

/-- **What stands behind `<!`**: a CDATA section, a comment, or else a declaration, if anything. -/
theorem toOption_readBang (cs : List Char) :
    (readBang cs).toOption =
      if cdataMark.isPrefixOf cs then
        (readTo [']', ']', '>'] cdata .unclosedCData (cs.drop 7)).toOption
      else if commentMark.isPrefixOf cs then
        (readTo ['-', '-', '>'] comment .unclosedComment (cs.drop 2)).toOption
      else (readDoctype cs).toOption := by
  unfold readBang
  split
  · rfl
  · rfl
  · next cs hcdata =>
    have hprefix : ¬ cdataMark.isPrefixOf ('[' :: cs) = true :=
      List.not_isPrefixOf_of_ne fun more heq => hcdata more (List.cons.inj heq).2
    rw [if_neg hprefix, if_neg (by simp [commentMark, List.isPrefixOf]),
      toOption_readDoctype_of_ne (by simp) (by simp)]
    rfl
  · next cs hcomment =>
    have hprefix : ¬ commentMark.isPrefixOf ('-' :: cs) = true :=
      List.not_isPrefixOf_of_ne fun more heq => hcomment more (List.cons.inj heq).2
    rw [if_neg (by simp [cdataMark, List.isPrefixOf]), if_neg hprefix,
      toOption_readDoctype_of_ne (by simp) (by simp)]
    rfl
  · rfl
  · rfl
  · next hbracket hdash hupper hlower =>
    have hcdata : ¬ cdataMark.isPrefixOf cs = true :=
      List.not_isPrefixOf_of_ne fun _ => hbracket _
    have hcomment : ¬ commentMark.isPrefixOf cs = true :=
      List.not_isPrefixOf_of_ne fun _ => hdash _
    rw [if_neg hcdata, if_neg hcomment, toOption_readDoctype_of_ne hupper hlower]
    rfl

/-- Behind a mark, other line ends are where the line ends were. -/
theorem drop_withLineEnd {mark cs : List Char} (hmark : Text.OneLine mark)
    (h : mark.isPrefixOf cs = true) :
    (Text.withLineEnd e cs).drop mark.length = Text.withLineEnd e (cs.drop mark.length) := by
  obtain ⟨more, rfl⟩ := List.isPrefixOf_iff_prefix.mp h
  rw [withLineEnd_append, Text.withLineEnd_of_oneLine e hmark, List.drop_left, List.drop_left]

/-- What stands behind a mark and runs to another. -/
theorem toOption_readTo_drop {mark last : List Char} (hmark : Text.OneLine mark)
    (hne : last ≠ []) (hlast : Text.OneLine last) {make : List Char → Token} (hmake : Makes e make)
    (error : LexicalError) {cs : List Char} (h : mark.isPrefixOf cs = true) :
    (readTo last make error ((Text.withLineEnd e cs).drop mark.length)).toOption
      = (readTo last make error (cs.drop mark.length)).toOption.map (restWithLineEnd e) := by
  rw [drop_withLineEnd e hmark h, toOption_readTo e hne hlast hmake error error]

theorem toOption_readBang_withLineEnd (cs : List Char) :
    (readBang (Text.withLineEnd e cs)).toOption
      = (readBang cs).toOption.map (restWithLineEnd e) := by
  have hcdata : Text.OneLine cdataMark := Text.oneLine_of_all rfl
  have hcomment : Text.OneLine commentMark := Text.oneLine_of_all rfl
  rw [toOption_readBang, toOption_readBang, Text.isPrefixOf_withLineEnd e cs hcdata,
    Text.isPrefixOf_withLineEnd e cs hcomment]
  split
  · next h =>
    exact toOption_readTo_drop e hcdata (List.cons_ne_nil _ _) (Text.oneLine_of_all rfl)
      (fun _ => rfl) _ h
  · split
    · next h =>
      exact toOption_readTo_drop e hcomment (List.cons_ne_nil _ _) (Text.oneLine_of_all rfl)
        (fun _ => rfl) _ h
    · exact toOption_readDoctype e cs

/-- What begins with a line end is read as a tag. -/
theorem readMarkup_withLineEnd_feed (cs : List Char) :
    readMarkup (Text.withLineEnd e ('\n' :: cs))
      = readTag ofContent (Text.withLineEnd e ('\n' :: cs)) := by
  cases e <;> exact readMarkup_eq_readTag _ (by decide)

theorem readMarkup_instruction {cs : List Char} (h : ∀ ds, cs ≠ '>' :: ds) :
    readMarkup ('?' :: cs) = readTo ['?', '>'] instruction (openInstruction cs) cs := by
  rw [readMarkup]
  exact h

/-- An instruction is closed at once, or it runs to its mark. -/
theorem toOption_readMarkup_instruction (cs : List Char) :
    (readMarkup ('?' :: Text.withLineEnd e cs)).toOption
      = (readMarkup ('?' :: cs)).toOption.map (restWithLineEnd e) := by
  have hgt : ['>'].isPrefixOf (Text.withLineEnd e cs) = ['>'].isPrefixOf cs :=
    Text.isPrefixOf_withLineEnd e cs (Text.oneLine_of_all rfl)
  by_cases hclosed : ['>'].isPrefixOf cs = true
  · obtain ⟨more, rfl⟩ := List.isPrefixOf_iff_prefix.mp hclosed
    rfl
  · have hopen : ∀ ds : List Char, ¬ ['>'].isPrefixOf ds = true → ∀ more, ds ≠ '>' :: more := by
      rintro _ h more rfl
      exact h rfl
    rw [readMarkup_instruction (hopen _ (hgt ▸ hclosed)), readMarkup_instruction (hopen cs hclosed)]
    exact toOption_readTo e (List.cons_ne_nil _ _) (Text.oneLine_of_all rfl) (fun _ => rfl) _ _ cs

/-- **What stands behind a `<`** is read as it was. -/
theorem toOption_readMarkup (cs : List Char) :
    (readMarkup (Text.withLineEnd e cs)).toOption
      = (readMarkup cs).toOption.map (restWithLineEnd e) := by
  rcases cs with _ | ⟨c, cs⟩
  · rfl
  · by_cases hfeed : c = '\n'
    · subst hfeed
      rw [readMarkup_withLineEnd_feed, readMarkup_eq_readTag cs (by decide)]
      exact toOption_readTag e (makes_ofContent e) _
    · rw [withLineEnd_cons e cs hfeed]
      by_cases hbang : c = '!'
      · subst hbang
        exact toOption_readBang_withLineEnd e cs
      · by_cases hquestion : c = '?'
        · subst hquestion
          exact toOption_readMarkup_instruction e cs
        · by_cases hslash : c = '/'
          · subst hslash
            exact toOption_readTag e (fun _ => rfl) cs
          · rw [readMarkup_eq_readTag _ ⟨hbang, hquestion, hslash⟩,
              readMarkup_eq_readTag _ ⟨hbang, hquestion, hslash⟩, ← withLineEnd_cons e cs hfeed]
            exact toOption_readTag e (makes_ofContent e) _

/-- The first token of a text and what follows it, if there is no fault. -/
def first? : List Char → Option (Token × List Char)
  | [] => none
  | c :: cs => (read c cs).toOption

theorem first?_of_isLiteral {cs : List Char} (h : cs.takeWhile isLiteral ≠ []) :
    first? cs = some (text (cs.takeWhile isLiteral), cs.dropWhile isLiteral) := by
  rcases cs with _ | ⟨c, cs⟩
  · contradiction
  · cases hc : isLiteral c with
    | true =>
      rw [first?, read_of_isLiteral cs hc, List.takeWhile_cons_of_pos hc,
        List.dropWhile_cons_of_pos hc]
      rfl
    | false => exact absurd (List.takeWhile_cons_of_neg (by simp [hc])) h

/-- **The first token is read as it was**, with other line ends. -/
theorem first?_withLineEnd (cs : List Char) :
    first? (Text.withLineEnd e cs) = (first? cs).map (restWithLineEnd e) := by
  by_cases hliteral : cs.takeWhile isLiteral = []
  · rcases cs with _ | ⟨c, cs⟩
    · rfl
    · have hc : ¬ isLiteral c = true := fun hc => by simp [hc] at hliteral
      have hfeed : c ≠ '\n' := by
        rintro rfl
        exact hc rfl
      rw [withLineEnd_cons e cs hfeed, first?, first?, read, read]
      by_cases hlt : c = '<'
      · rw [if_pos hlt, if_pos hlt]
        exact toOption_readMarkup e cs
      · have hamp : c = '&' := by simpa [isLiteral, hlt] using hc
        rw [if_neg hlt, if_neg hlt, if_pos hamp, if_pos hamp, readReference, readReference,
          splitReference_withLineEnd]
        cases splitReference cs <;> rfl
  · have htake := Text.takeWhile_withLineEnd e cs (p := isLiteral) rfl
    have hdrop := Text.dropWhile_withLineEnd e cs (p := isLiteral) rfl
    have hne : (Text.withLineEnd e cs).takeWhile isLiteral ≠ [] := by
      rw [htake]
      exact mt (Text.withLineEnd_eq_nil_iff e).mp hliteral
    rw [first?_of_isLiteral hne, first?_of_isLiteral hliteral, htake, hdrop]
    rfl

end Token

/-! ## All tokens -/

namespace Reading

theorem of_of_first? {cs rest : List Char} {t : Token} (h : Token.first? cs = some (t, rest)) :
    of cs = (of rest).cons t ∧ rest.length < cs.length := by
  rcases cs with _ | ⟨c, cs⟩
  · contradiction
  · rw [Token.first?] at h
    rcases hread : Token.read c cs with f | result
    · rw [hread] at h
      contradiction
    · rw [hread] at h
      obtain rfl := Option.some.inj h
      exact ⟨of_cons_of_read hread, Nat.lt_succ_of_le (Token.length_rest_le_of_read hread)⟩

theorem of_of_first?_eq_none {cs : List Char} (h : Token.first? cs = none) :
    (of cs).tokens = [] ∧ ((of cs).fault? = none ↔ cs = []) := by
  rcases cs with _ | ⟨c, cs⟩
  · simp
  · rw [Token.first?] at h
    rcases hread : Token.read c cs with f | result
    · simp [of_cons_of_fault hread]
    · rw [hread] at h
      contradiction

/-- **The tokens of a text with other line ends** are those of the text, with other line ends; and
it has a fault if the text has one. -/
theorem of_withLineEnd (cs : List Char) :
    (of (Text.withLineEnd e cs)).tokens = (of cs).tokens.map (Token.withLineEnd e) ∧
      ((of (Text.withLineEnd e cs)).fault? = none ↔ (of cs).fault? = none) := by
  induction hn : cs.length using Nat.strongRecOn generalizing cs with
  | ind n ih =>
    subst hn
    have hfirst := Token.first?_withLineEnd e cs
    rcases hcs : Token.first? cs with _ | ⟨t, rest⟩
    · rw [hcs] at hfirst
      obtain ⟨htokens, hfault⟩ := of_of_first?_eq_none hcs
      obtain ⟨htokens', hfault'⟩ := of_of_first?_eq_none hfirst
      exact ⟨by rw [htokens, htokens']; rfl,
        hfault'.trans ((Text.withLineEnd_eq_nil_iff e).trans hfault.symm)⟩
    · rw [hcs] at hfirst
      obtain ⟨hof, hlength⟩ := of_of_first? hcs
      obtain ⟨hof', -⟩ := of_of_first? hfirst
      obtain ⟨htokens, hfault⟩ := ih rest.length hlength rest rfl
      rw [hof, hof']
      refine ⟨congrArg (t.withLineEnd e :: ·) htokens, ?_⟩
      exact Option.map_eq_none_iff.trans (hfault.trans Option.map_eq_none_iff.symm)

end Reading

end DocMarkdown.Markup
