import DocMarkdown.Markup.Attribute

/-!
# Proofs/Markup/Written — values, text and attributes as a writer writes them

A writer of markup **escapes** the characters that a reader would take for something else: in a
value the `&` and the closing quote, in running text the `&`, the `<` and the CR, which no literal
text keeps.  What is escaped is read back: `unescape?_escapeValue` for values, and
`readAll_writeAttributes` for the attributes of a whole tag, in whichever order they stand.
-/

namespace DocMarkdown.Markup

open Text (width)

/-! ## Names -/

/-- A character that may stand in a name: no space, and none with a role in a tag. -/
def isNameChar (c : Char) : Bool :=
  !isSpace c && !(['<', '>', '/', '=', '\'', '"', '&', '!', '?'].contains c)

/-- **A name**, of a tag or of an attribute. -/
def IsName (cs : List Char) : Prop :=
  cs ≠ [] ∧ ∀ c ∈ cs, isNameChar c = true

instance : DecidablePred IsName := fun cs =>
  decidable_of_iff (cs ≠ [] ∧ cs.all isNameChar = true) (by rw [IsName, List.all_eq_true])

/-- The key declares a namespace. -/
def declaresNamespace (key : String) : Bool :=
  "xmlns:".toList.isPrefixOf key.toList || key == "xmlns"

theorem isSpace_of_isNameChar {c : Char} (h : isNameChar c = true) : isSpace c = false := by
  simp only [isNameChar, Bool.and_eq_true, Bool.not_eq_true'] at h
  exact h.1

/-- A name character is none of the characters with a role. -/
theorem ne_of_isNameChar {c d : Char} (h : isNameChar c = true)
    (hd : d ∈ ['<', '>', '/', '=', '\'', '"', '&', '!', '?']) : c ≠ d := by
  rintro rfl
  simp only [isNameChar, Bool.and_eq_true, Bool.not_eq_true', List.contains_eq_mem,
    decide_eq_false_iff_not] at h
  exact h.2 hd

/-- No space ends a name early. -/
theorem IsName.all_not_isSpace {name : List Char} (h : IsName name) :
    ∀ c ∈ name, (!isSpace c) = true := by
  intro c hc
  rw [isSpace_of_isNameChar (h.2 c hc)]
  rfl

/-! ## Values

A writer puts values between double quotes.  It has to escape that quote and the `&`, and leaves
everything else as it is, line ends among it. -/

/-- A character of a value, escaped. -/
def escapeValueChar (c : Char) : List Char :=
  if c = '&' then ['&', 'a', 'm', 'p', ';']
  else if c = '"' then ['&', 'q', 'u', 'o', 't', ';']
  else [c]

/-- **A value between double quotes.** -/
def escapeValue (cs : List Char) : List Char :=
  cs.flatMap escapeValueChar

theorem unescape?_cons {c : Char} (cs : List Char) (h : c ≠ '&') :
    unescape? (c :: cs) = (unescape? cs).map (c :: ·) := by
  rw [unescape?, if_neg h]

/-- A reference at the front of a value. -/
theorem unescape?_reference {cs name rest : List Char} {d : Char}
    (h : splitReference cs = some (name, rest)) (hd : Spelling.value.resolve? name = some d) :
    unescape? ('&' :: cs) = (unescape? rest).map (d :: ·) := by
  rw [unescape?, if_pos rfl]
  split
  · next heq => rw [h] at heq; contradiction
  · next heq =>
    rw [h] at heq
    obtain ⟨rfl, rfl⟩ := Prod.mk.inj (Option.some.inj heq)
    rw [hd]
    rcases unescape? rest with _ | cs <;> rfl

/-- **A value that was escaped is read back.** -/
theorem unescape?_escapeValue (cs : List Char) : unescape? (escapeValue cs) = some cs := by
  induction cs with
  | nil => rw [escapeValue, List.flatMap_nil, unescape?]
  | cons c cs ih =>
    rw [escapeValue, List.flatMap_cons, ← escapeValue]
    by_cases hamp : c = '&'
    · subst hamp
      have hs : splitReference ('a' :: 'm' :: 'p' :: ';' :: escapeValue cs)
          = some (['a', 'm', 'p'], escapeValue cs) := rfl
      exact (unescape?_reference hs rfl).trans (by rw [ih]; rfl)
    · by_cases hquote : c = '"'
      · subst hquote
        have hs : splitReference ('q' :: 'u' :: 'o' :: 't' :: ';' :: escapeValue cs)
            = some (['q', 'u', 'o', 't'], escapeValue cs) := rfl
        exact (unescape?_reference hs rfl).trans (by rw [ih]; rfl)
      · rw [escapeValueChar, if_neg hamp, if_neg hquote, List.singleton_append,
          unescape?_cons _ hamp, ih]
        rfl

theorem attributeValue_escapeValue (cs : List Char) : attributeValue (escapeValue cs) = cs := by
  rw [attributeValue, unescape?_escapeValue]
  rfl

/-- No closing quote is left in an escaped value. -/
theorem quote_not_mem_escapeValue (cs : List Char) : '"' ∉ escapeValue cs := by
  simp only [escapeValue, List.mem_flatMap, not_exists, not_and]
  intro c _ h
  rw [escapeValueChar] at h
  split at h
  · exact absurd h (by decide)
  · split at h
    · exact absurd h (by decide)
    · next hc => exact hc (List.mem_singleton.mp h).symm

/-! ## Attributes

A key is a name, so the `=` behind it ends it, and a value is read up to its closing quote.  The
induction is over the attributes still to come, for any that have been read already, since a key
must be new to those. -/

/-- **An attribute as a writer writes it**: its key, and its value between double quotes. -/
def writeAttribute (a : String × String) : List Char :=
  ' ' :: (a.1.toList ++ '=' :: '"' :: (escapeValue a.2.toList ++ ['"']))

/-- Attributes, one behind the other. -/
def writeAttributes (as : List (String × String)) : List Char :=
  as.flatMap writeAttribute

namespace Attribute

/-- The key and the value of an attribute, as an element has them. -/
def pair (a : Attribute) : String × String :=
  (String.ofList a.key, String.ofList a.value)

theorem declaresNamespace_pair (a : Attribute) :
    declaresNamespace a.pair.1 = a.isNamespace := by
  have hkey : (String.ofList a.key == "xmlns") = (a.key == "xmlns".toList) := by
    rw [Bool.eq_iff_iff, beq_iff_eq, beq_iff_eq, ← String.toList_inj, String.toList_ofList]
  simp only [declaresNamespace, pair, isNamespace, String.toList_ofList, hkey]

theorem readEquals_equals (size : Nat) (rest : List Char) :
    readEquals size ('=' :: rest) = .ok rest := rfl

/-- A value runs to the next quote of its kind. -/
theorem readValue_quoted (size : Nat) (q : Quote) {raw : List Char} (rest : List Char)
    (h : q.char ∉ raw) :
    readValue size (q.char :: (raw ++ q.char :: rest)) = .ok (raw, rest) := by
  have hraw : ∀ d ∈ raw, decide (d ≠ q.char) = true := by
    intro d hd
    rw [decide_eq_true_eq]
    rintro rfl
    exact h hd
  have hspace : isSpace q.char = false := by cases q <;> rfl
  unfold readValue
  rw [List.dropWhile_cons_of_neg (by simp [hspace])]
  simp only [Quote.ofChar?_char]
  rw [List.takeWhile_append_of_pos hraw, List.dropWhile_append_of_pos hraw,
    List.takeWhile_cons_of_neg (by simp), List.dropWhile_cons_of_neg (by simp), List.append_nil]

/-- An attribute with a key that the tag has not had is read. -/
theorem read_quoted (size : Nat) (q : Quote) {earlier : List Attribute} {c : Char}
    {key raw : List Char} (rest : List Char) (hname : IsName (c :: key))
    (hnew : ∀ a ∈ earlier, a.key ≠ c :: key) (hraw : q.char ∉ raw) :
    ∃ offset, read size earlier c (key ++ '=' :: q.char :: (raw ++ q.char :: rest))
      = .ok (⟨c :: key, offset, raw⟩, rest) := by
  have hkey : ∀ d ∈ key, (!endsKey d) = true := by
    intro d hd
    have hd' := hname.2 d (List.mem_cons_of_mem _ hd)
    simp [endsKey, isSpace_of_isNameChar hd', ne_of_isNameChar hd' (d := '=') (by simp)]
  have htwin : earlier.find? (·.key = c :: key) = none := by
    simpa [List.find?_eq_none] using hnew
  refine ⟨size - width (c :: (key ++ '=' :: q.char :: (raw ++ q.char :: rest))), ?_⟩
  rw [read, List.takeWhile_append_of_pos hkey, List.dropWhile_append_of_pos hkey,
    List.takeWhile_cons_of_neg (by simp [endsKey]), List.dropWhile_cons_of_neg (by simp [endsKey]),
    List.append_nil, readEquals_equals]
  simp only [bind, Except.bind, htwin, readValue_quoted size q rest hraw, pure, Except.pure]

/-- No attribute is left. -/
theorem readAll_nil (size : Nat) (earlier : List Attribute) :
    readAll size earlier [] = .ok earlier.reverse := by
  rw [readAll]
  rfl

/-- One attribute, behind a space. -/
theorem readAll_cons {size : Nat} {earlier : List Attribute} {a : Attribute} {c : Char}
    {cs rest : List Char} (hc : isSpace c = false) (h : read size earlier c cs = .ok (a, rest)) :
    readAll size earlier (' ' :: c :: cs) = readAll size (a :: earlier) rest := by
  have hd : (' ' :: c :: cs).dropWhile isSpace = c :: cs := by
    rw [List.dropWhile_cons_of_pos rfl, List.dropWhile_cons_of_neg (by simp [hc])]
  rw [readAll]
  split
  · next heq => rw [hd] at heq; contradiction
  · next heq =>
    rw [hd] at heq
    obtain ⟨rfl, rfl⟩ := List.cons.inj heq
    split
    · next hr => rw [h] at hr; contradiction
    · next hr =>
      rw [h] at hr
      obtain ⟨rfl, rfl⟩ := Prod.mk.inj (Except.ok.inj hr)
      rfl

/-- **A written attribute is read back**, and reading goes on behind it. -/
theorem exists_readAll_writeAttribute (size : Nat) {earlier : List Attribute}
    {w : String × String} (rest : List Char) (hname : IsName w.1.toList)
    (hnew : ∀ a ∈ earlier, a.key ≠ w.1.toList) :
    ∃ a : Attribute, a.key = w.1.toList ∧ a.pair = w ∧
      readAll size earlier (writeAttribute w ++ rest) = readAll size (a :: earlier) rest := by
  obtain ⟨key, v⟩ := w
  obtain ⟨c, cs, hkey⟩ := List.exists_cons_of_ne_nil hname.1
  rw [hkey] at hname hnew
  obtain ⟨offset, hread⟩ := read_quoted size .double rest hname hnew
    (quote_not_mem_escapeValue v.toList)
  have hwrite : writeAttribute (key, v) ++ rest = ' ' :: c :: (cs ++ '=' :: Quote.double.char ::
      (escapeValue v.toList ++ Quote.double.char :: rest)) := by
    simp [writeAttribute, hkey, Quote.char]
  refine ⟨⟨c :: cs, offset, escapeValue v.toList⟩, hkey.symm, ?_, ?_⟩
  · rw [pair, value, attributeValue_escapeValue, ← hkey, String.ofList_toList,
      String.ofList_toList]
  · rw [hwrite, readAll_cons (isSpace_of_isNameChar (hname.2 c List.mem_cons_self)) hread]

/-- **Written attributes are read back**, if their keys are names and no key comes twice. -/
theorem readAll_writeAttributes (size : Nat) (earlier : List Attribute)
    {written : List (String × String)} (hnames : ∀ w ∈ written, IsName w.1.toList)
    (hnodup : (written.map Prod.fst).Nodup)
    (hnew : ∀ w ∈ written, ∀ a ∈ earlier, a.key ≠ w.1.toList) :
    ∃ as, readAll size earlier (writeAttributes written) = .ok (earlier.reverse ++ as) ∧
      as.map pair = written := by
  induction written generalizing earlier with
  | nil => exact ⟨[], by rw [writeAttributes, List.flatMap_nil, readAll_nil, List.append_nil], rfl⟩
  | cons w ws ih =>
    obtain ⟨hw, hws⟩ := List.nodup_cons.mp hnodup
    obtain ⟨a, hkey, hpair, hread⟩ := exists_readAll_writeAttribute size (writeAttributes ws)
      (hnames w List.mem_cons_self) (hnew w List.mem_cons_self)
    have hnew' : ∀ w' ∈ ws, ∀ b ∈ a :: earlier, b.key ≠ w'.1.toList := by
      intro w' hmem b hb
      rcases List.mem_cons.mp hb with rfl | hb
      · intro heq
        refine hw (List.mem_map.mpr ⟨w', hmem, ?_⟩)
        rw [← String.toList_inj, ← heq, hkey]
      · exact hnew w' (List.mem_cons_of_mem w hmem) b hb
    obtain ⟨as, has, hpairs⟩ :=
      ih _ (fun w' hmem => hnames w' (List.mem_cons_of_mem w hmem)) hws hnew'
    refine ⟨a :: as, ?_, ?_⟩
    · rw [writeAttributes, List.flatMap_cons, ← writeAttributes, hread, has, List.reverse_cons,
        List.append_assoc, List.singleton_append]
    · rw [List.map_cons, hpair, hpairs]

end Attribute

/-! ## Tags -/

/-- **A tag as a writer writes it**: its name, and its attributes behind it. -/
def writeTag (name : List Char) (as : List (String × String)) : List Char :=
  name ++ writeAttributes as

/-- Written attributes begin with a space. -/
theorem writeAttributes_eq (as : List (String × String)) :
    writeAttributes as = [] ∨ ∃ rest, writeAttributes as = ' ' :: rest := by
  rcases as with _ | ⟨a, as⟩
  · exact Or.inl rfl
  · exact Or.inr ⟨_, rfl⟩

theorem tagName_writeTag {name : List Char} (as : List (String × String)) (h : IsName name) :
    tagName (writeTag name as) = name := by
  rw [tagName, writeTag, List.takeWhile_append_of_pos h.all_not_isSpace]
  rcases writeAttributes_eq as with has | ⟨rest, has⟩
  · rw [has, List.takeWhile_nil, List.append_nil]
  · rw [has, List.takeWhile_cons_of_neg (by decide), List.append_nil]

/-- **The attributes of a written tag are read back.** -/
theorem tagAttributes_writeTag {name : List Char} {written : List (String × String)}
    (h : IsName name) (hnames : ∀ w ∈ written, IsName w.1.toList)
    (hnodup : (written.map Prod.fst).Nodup) :
    ∃ as, tagAttributes (writeTag name written) = .ok as ∧ as.map Attribute.pair = written := by
  have hdrop : (writeTag name written).dropWhile (!isSpace ·) = writeAttributes written := by
    rw [writeTag, List.dropWhile_append_of_pos h.all_not_isSpace]
    rcases writeAttributes_eq written with has | ⟨rest, has⟩
    · rw [has, List.dropWhile_nil]
    · rw [has, List.dropWhile_cons_of_neg (by decide)]
  obtain ⟨as, has, hpairs⟩ := Attribute.readAll_writeAttributes
    (width (writeTag name written)) [] hnames hnodup (by simp)
  refine ⟨as, ?_, hpairs⟩
  rw [tagAttributes, hdrop, has, List.reverse_nil, List.nil_append]

theorem getLast?_writeAttributes (as : List (String × String)) :
    (writeAttributes as).getLast? = if as = [] then none else some '"' := by
  induction as with
  | nil => rfl
  | cons a as ih =>
    have hquote : writeAttribute a
        = ' ' :: (a.1.toList ++ '=' :: '"' :: escapeValue a.2.toList) ++ ['"'] := by
      simp [writeAttribute]
    have hlast : (writeAttribute a).getLast? = some '"' := by
      rw [hquote, List.getLast?_concat]
    rw [writeAttributes, List.flatMap_cons, ← writeAttributes, List.getLast?_append, ih, hlast]
    by_cases has : as = [] <;> simp [has]

/-- **A written tag does not end with a slash**, so a slash behind it makes it an empty tag. -/
theorem getLast?_writeTag_ne {name : List Char} (as : List (String × String)) (h : IsName name) :
    (writeTag name as).getLast? ≠ some '/' := by
  rw [writeTag, List.getLast?_append, getLast?_writeAttributes]
  by_cases has : as = []
  · rw [if_pos has, Option.none_or]
    intro hlast
    exact ne_of_isNameChar (h.2 '/' (List.mem_of_getLast? hlast)) (by decide) rfl
  · simp [if_neg has]

/-- **A written tag begins with a name**, so it is taken for no other kind of markup. -/
theorem exists_head?_writeTag {name : List Char} (as : List (String × String)) (h : IsName name) :
    ∃ c, (writeTag name as).head? = some c ∧ c ≠ '!' ∧ c ≠ '?' ∧ c ≠ '/' := by
  obtain ⟨c, cs, rfl⟩ := List.exists_cons_of_ne_nil h.1
  have hc := h.2 c List.mem_cons_self
  exact ⟨c, rfl, ne_of_isNameChar hc (by decide), ne_of_isNameChar hc (by decide),
    ne_of_isNameChar hc (by decide)⟩

/-- **A name without space is the name of its end tag.** -/
theorem endTagName_of_not_isSpace {name : List Char} (h : ∀ c ∈ name, isSpace c = false) :
    endTagName name = name := by
  have hdrop : dropTrailingSpace name = name := by
    rw [dropTrailingSpace]
    rcases hname : name.reverse with _ | ⟨last, front⟩
    · exact (List.reverse_eq_nil_iff.mp hname).symm
    · have hlast : last ∈ name := by
        rw [← List.mem_reverse, hname]
        exact List.mem_cons_self
      rw [List.dropWhile_cons_of_neg (by simp [h last hlast]), ← hname, List.reverse_reverse]
  rw [endTagName, hdrop]
  split
  · rfl
  · rfl

theorem endTagName_of_isName {name : List Char} (h : IsName name) : endTagName name = name :=
  endTagName_of_not_isSpace fun c hc => isSpace_of_isNameChar (h.2 c hc)

/-! ## Prefixes -/

/-- **What may stand before the local part of a name**: nothing, or a name without a colon, and a
colon. -/
def IsPrefix (cs : List Char) : Prop :=
  cs = [] ∨ ∃ p, IsName p ∧ ':' ∉ p ∧ cs = p ++ [':']

theorem isName_prefixed {front name : List Char} (hfront : IsPrefix front) (hname : IsName name) :
    IsName (front ++ name) := by
  rcases hfront with rfl | ⟨p, hp, -, rfl⟩
  · exact hname
  · refine ⟨by simp, ?_⟩
    intro c hc
    rcases List.mem_append.mp hc with hc | hc
    · rcases List.mem_append.mp hc with hc | hc
      · exact hp.2 c hc
      · rw [List.mem_singleton.mp hc]
        decide
    · exact hname.2 c hc

/-- **The local part is what stands behind a prefix.** -/
theorem localPart_prefixed {front name : List Char} (hfront : IsPrefix front)
    (hcolon : ':' ∉ name) : localPart (front ++ name) = name := by
  have hpass : ∀ cs : List Char, ':' ∉ cs → ∀ c ∈ cs, decide (c ≠ ':') = true := by
    intro cs h c hc
    rw [decide_eq_true_eq]
    rintro rfl
    exact h hc
  rcases hfront with rfl | ⟨p, -, hp, rfl⟩
  · rw [List.nil_append, localPart,
      ← List.append_nil name, List.dropWhile_append_of_pos (hpass name hcolon), List.dropWhile_nil]
  · rw [List.append_assoc, localPart, List.dropWhile_append_of_pos (hpass p hp),
      List.singleton_append, List.dropWhile_cons_of_neg (by decide)]

/-! ## Running text

A CR would be read as a LF, so a writer spells it by its number. -/

/-- A character of running text, escaped. -/
def escapeTextChar (c : Char) : List Char :=
  if c = '&' then ['&', 'a', 'm', 'p', ';']
  else if c = '<' then ['&', 'l', 't', ';']
  else if c = '\r' then ['&', '#', '1', '3', ';']
  else [c]

/-- **Running text as a writer writes it.** -/
def escapeText (cs : List Char) : List Char :=
  cs.flatMap escapeTextChar

end DocMarkdown.Markup
