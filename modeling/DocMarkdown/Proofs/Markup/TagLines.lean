import DocMarkdown.Proofs.Markup.Lines
import Mathlib.Data.List.Induction

/-!
# Proofs/Markup/TagLines — tags with other line ends

Within a tag a line end is space, and one form of space is as good as another: a tag has the same
name (`tagName_withLineEnd`), an end tag closes the same elements (`eq_endTagName_withLineEnd_iff`),
and the attributes are the same but for line ends in their values and for where they stand
(`map_tagAttributes_withLineEnd`).
-/

namespace DocMarkdown.Markup

open Text (LineEnd withLineEnd withLineEnd_cons withLineEnd_append)

variable (e : LineEnd)

/-! ## Names -/

/-- What ends at a line end is of one line. -/
theorem takeWhile_withLineEnd_of_stop (cs : List Char) {p : Char → Bool} (hreturn : p '\r' = false)
    (hfeed : p '\n' = false) : (withLineEnd e cs).takeWhile p = cs.takeWhile p := by
  have hmem : '\n' ∉ cs.takeWhile p := by
    intro h
    rw [List.all_eq_true.mp List.all_takeWhile '\n' h] at hfeed
    contradiction
  rw [Text.takeWhile_withLineEnd e cs (hreturn.trans hfeed.symm),
    Text.withLineEnd_of_not_mem e hmem]

theorem tagName_withLineEnd (content : List Char) :
    tagName (withLineEnd e content) = tagName content :=
  takeWhile_withLineEnd_of_stop e content rfl rfl

/-- Space at the end is dropped, and nothing else. -/
theorem dropTrailingSpace_append {cs space : List Char} (hspace : space.all isSpace = true) :
    dropTrailingSpace (cs ++ space) = dropTrailingSpace cs := by
  have hall : ∀ c ∈ space.reverse, isSpace c = true := by
    intro c hc
    exact List.all_eq_true.mp hspace c (List.mem_reverse.mp hc)
  rw [dropTrailingSpace, dropTrailingSpace, List.reverse_append,
    List.dropWhile_append_of_pos hall]

theorem dropTrailingSpace_concat {cs : List Char} {c : Char} (hc : isSpace c = false) :
    dropTrailingSpace (cs ++ [c]) = cs ++ [c] := by
  rw [dropTrailingSpace, List.reverse_concat, List.dropWhile_cons_of_neg (by simp [hc]),
    List.reverse_cons, List.reverse_reverse]

theorem dropTrailingSpace_withLineEnd (cs : List Char) :
    dropTrailingSpace (withLineEnd e cs) = withLineEnd e (dropTrailingSpace cs) := by
  induction cs using List.reverseRecOn with
  | nil => rfl
  | append_singleton cs c ih =>
    rw [withLineEnd_append]
    cases hc : isSpace c with
    | true =>
      have hspace : (withLineEnd e [c]).all isSpace = true := by
        rw [Text.all_withLineEnd e [c] rfl]
        simp [hc]
      rw [dropTrailingSpace_append hspace, ih, dropTrailingSpace_append (by simp [hc])]
    | false =>
      have hself : withLineEnd e [c] = [c] := withLineEnd_cons e [] (by rintro rfl; contradiction)
      rw [hself, dropTrailingSpace_concat hc, dropTrailingSpace_concat hc, withLineEnd_append,
        hself]

theorem endTagName_eq (content : List Char) : endTagName content =
    if dropTrailingSpace content = [] then content else dropTrailingSpace content := by
  rw [endTagName]
  split
  · next h => rw [if_pos h]
  · next h => rw [if_neg h]

theorem endTagName_withLineEnd (content : List Char) :
    endTagName (withLineEnd e content) = withLineEnd e (endTagName content) := by
  rw [endTagName_eq, endTagName_eq, dropTrailingSpace_withLineEnd]
  by_cases hnil : dropTrailingSpace content = []
  · rw [if_pos hnil, if_pos ((Text.withLineEnd_eq_nil_iff e).mpr hnil)]
  · rw [if_neg hnil, if_neg (mt (Text.withLineEnd_eq_nil_iff e).mp hnil)]

/-- **A name without space is closed by the same end tags.** -/
theorem eq_endTagName_withLineEnd_iff {name : List Char} (h : name.all (!isSpace ·) = true)
    (content : List Char) :
    name = endTagName (withLineEnd e content) ↔ name = endTagName content := by
  rw [endTagName_withLineEnd]
  -- on either side the name of the end tag is of one line, if it is the name
  have hself : ∀ {other}, name = other ∨ name = withLineEnd e other →
      withLineEnd e other = other := by
    intro other hother
    refine Text.withLineEnd_of_not_mem e fun hmem => ?_
    have hspace : name.all (!isSpace ·) = other.all (!isSpace ·) := by
      rcases hother with rfl | rfl
      · rfl
      · exact Text.all_withLineEnd e other rfl
    rw [h] at hspace
    exact absurd (List.all_eq_true.mp hspace.symm '\n' hmem) (by decide)
  constructor
  · intro hname
    rwa [hself (.inr hname)] at hname
  · intro hname
    rwa [hself (.inl hname)]

/-! ## Attributes

The place of an attribute counts bytes, so it moves with the line ends before it.  What is compared
is all the rest (`bare`).  Places come into errors, and into nothing else that is read. -/

namespace Attribute

/-- What an attribute is but for its place. -/
def bare (a : Attribute) : List Char × List Char :=
  (a.key, a.raw)

/-- The same with other line ends in the value. -/
def bareWithLineEnd (e : LineEnd) (a : Attribute) : List Char × List Char :=
  (a.key, withLineEnd e a.raw)

theorem dropWhile_isSpace_withLineEnd (cs : List Char) :
    (withLineEnd e cs).dropWhile isSpace = withLineEnd e (cs.dropWhile isSpace) :=
  Text.dropWhile_withLineEnd e cs rfl

/-- Behind space there is no line end. -/
theorem withLineEnd_of_dropWhile_isSpace {cs rest : List Char} {c : Char}
    (h : cs.dropWhile isSpace = c :: rest) :
    withLineEnd e (c :: rest) = c :: withLineEnd e rest := by
  refine withLineEnd_cons e rest ?_
  rintro rfl
  exact absurd (List.not_of_dropWhile_eq_cons h) (by decide)

theorem toOption_readEquals (size size' : Nat) (cs : List Char) :
    (readEquals size' (withLineEnd e cs)).toOption
      = (readEquals size cs).toOption.map (withLineEnd e) := by
  rw [readEquals, readEquals, dropWhile_isSpace_withLineEnd]
  rcases hcs : cs.dropWhile isSpace with _ | ⟨c, rest⟩
  · rfl
  · rw [withLineEnd_of_dropWhile_isSpace e hcs]
    simp only
    split <;> rfl

theorem toOption_readValue (size size' : Nat) (cs : List Char) :
    (readValue size' (withLineEnd e cs)).toOption = (readValue size cs).toOption.map fun parts =>
      (withLineEnd e parts.1, withLineEnd e parts.2) := by
  rw [readValue, readValue, dropWhile_isSpace_withLineEnd]
  rcases hcs : cs.dropWhile isSpace with _ | ⟨c, rest⟩
  · rfl
  · rw [withLineEnd_of_dropWhile_isSpace e hcs]
    simp only
    rcases hquote : Quote.ofChar? c with _ | q
    · rfl
    · have htake : (withLineEnd e rest).takeWhile (· ≠ q.char)
          = withLineEnd e (rest.takeWhile (· ≠ q.char)) :=
        Text.takeWhile_withLineEnd e rest (by cases q <;> rfl)
      have hdrop : (withLineEnd e rest).dropWhile (· ≠ q.char)
          = withLineEnd e (rest.dropWhile (· ≠ q.char)) :=
        Text.dropWhile_withLineEnd e rest (by cases q <;> rfl)
      simp only [htake, hdrop]
      rcases hrest : rest.dropWhile (· ≠ q.char) with _ | ⟨d, after⟩
      · rfl
      · have hd : d = q.char := by simpa using List.not_of_dropWhile_eq_cons hrest
        have hfeed : d ≠ '\n' := by rw [hd]; cases q <;> decide
        rw [withLineEnd_cons e after hfeed]
        rfl

/-- The key of an attribute, from its first character on. -/
def keyFrom (c : Char) (cs : List Char) : List Char :=
  c :: cs.takeWhile (!endsKey ·)

/-- **Reading an attribute**, part by part: its place counts for nothing but errors. -/
theorem map_read (size : Nat) (earlier : List Attribute) (c : Char) (cs : List Char) :
    (read size earlier c cs).toOption.map (fun r => (r.1.bare, r.2))
      = (readEquals size (cs.dropWhile (!endsKey ·))).toOption.bind fun rest =>
          if keyFrom c cs ∈ earlier.map key then none
          else (readValue size rest).toOption.map fun parts =>
            ((keyFrom c cs, parts.1), parts.2) := by
  have hfind : earlier.find? (·.key = keyFrom c cs) = none ↔ keyFrom c cs ∉ earlier.map key := by
    simp [List.find?_eq_none]
  rw [keyFrom] at hfind ⊢
  unfold read
  simp only [bind, Except.bind]
  rcases readEquals size (cs.dropWhile (!endsKey ·)) with error | rest
  · rfl
  · rcases htwin : earlier.find? (·.key = c :: cs.takeWhile (!endsKey ·)) with _ | twin
    · simp only [Except.toOption, Option.bind_some, if_neg (hfind.mp htwin), htwin]
      rcases readValue size rest with error | parts <;> rfl
    · have hmem : c :: cs.takeWhile (!endsKey ·) ∈ earlier.map key := by
        by_contra hnew
        rw [hfind.mpr hnew] at htwin
        contradiction
      simp only [Except.toOption, Option.bind_some, if_pos hmem, htwin]
      rfl

/-- **An attribute is read as it was.** -/
theorem map_read_withLineEnd {earlier earlier' : List Attribute}
    (h : earlier'.map key = earlier.map key) (size size' : Nat) (c : Char) (cs : List Char) :
    (read size' earlier' c (withLineEnd e cs)).toOption.map (fun r => (r.1.bare, r.2))
      = (read size earlier c cs).toOption.map fun r =>
          (r.1.bareWithLineEnd e, withLineEnd e r.2) := by
  have hkey : keyFrom c (withLineEnd e cs) = keyFrom c cs :=
    congrArg (c :: ·) (takeWhile_withLineEnd_of_stop e cs rfl rfl)
  have hdrop : (withLineEnd e cs).dropWhile (!endsKey ·)
      = withLineEnd e (cs.dropWhile (!endsKey ·)) := Text.dropWhile_withLineEnd e cs rfl
  have hbare : ∀ r : Option (Attribute × List Char),
      r.map (fun r => (r.1.bareWithLineEnd e, withLineEnd e r.2))
        = (r.map fun r => (r.1.bare, r.2)).map fun p =>
            ((p.1.1, withLineEnd e p.1.2), withLineEnd e p.2) := by
    intro r
    rw [Option.map_map]
    rfl
  rw [hbare, map_read, map_read, hkey, hdrop, h, toOption_readEquals e size size', Option.map_bind]
  rcases (readEquals size (cs.dropWhile (!endsKey ·))).toOption with _ | rest
  · rfl
  · simp only [Option.map_some, Option.bind_some, Function.comp_apply]
    split
    · rfl
    · rw [toOption_readValue e size size', Option.map_map, Option.map_map]
      rfl

theorem readAll_of_dropWhile_nil {size : Nat} {earlier : List Attribute} {cs : List Char}
    (h : cs.dropWhile isSpace = []) : readAll size earlier cs = .ok earlier.reverse := by
  rw [readAll]
  split
  · rfl
  · next heq => rw [h] at heq; contradiction

theorem toOption_readAll_of_dropWhile_cons {size : Nat} {earlier : List Attribute}
    {cs rest : List Char} {c : Char} (h : cs.dropWhile isSpace = c :: rest) :
    (readAll size earlier cs).toOption = (read size earlier c rest).toOption.bind fun r =>
      (readAll size (r.1 :: earlier) r.2).toOption := by
  rw [readAll]
  split
  · next heq => rw [h] at heq; contradiction
  · next heq =>
    rw [h] at heq
    obtain ⟨rfl, rfl⟩ := List.cons.inj heq
    split
    · next hread => rw [hread]; rfl
    · next hread => rw [hread]; rfl

/-- Reading an attribute leaves less. -/
theorem length_lt_of_toOption_read {size : Nat} {earlier : List Attribute} {c : Char}
    {cs rest behind : List Char} {a : Attribute} (hcs : cs.dropWhile isSpace = c :: rest)
    (h : (read size earlier c rest).toOption = some (a, behind)) : behind.length < cs.length := by
  have hle : (cs.dropWhile isSpace).length ≤ cs.length :=
    (List.dropWhile_suffix _).length_le
  have hle' := length_rest_le_of_read (Except.eq_ok_of_toOption h)
  rw [hcs, List.length_cons] at hle
  omega

/-- **All attributes are read as they were.** -/
theorem map_readAll_withLineEnd {earlier earlier' : List Attribute}
    (h : earlier'.map bare = earlier.map (bareWithLineEnd e)) (size size' : Nat)
    (cs : List Char) :
    (readAll size' earlier' (withLineEnd e cs)).toOption.map (List.map bare)
      = (readAll size earlier cs).toOption.map (List.map (bareWithLineEnd e)) := by
  induction hn : cs.length using Nat.strongRecOn generalizing cs earlier earlier' with
  | ind n ih =>
    subst hn
    have hdrop := dropWhile_isSpace_withLineEnd e cs
    rcases hcs : cs.dropWhile isSpace with _ | ⟨c, rest⟩
    · rw [hcs] at hdrop
      rw [readAll_of_dropWhile_nil hcs, readAll_of_dropWhile_nil hdrop]
      simp [Except.toOption, h]
    · rw [hcs, withLineEnd_of_dropWhile_isSpace e hcs] at hdrop
      have hkeys : earlier'.map key = earlier.map key := by
        simpa [Function.comp_def, bare, bareWithLineEnd] using congrArg (List.map Prod.fst) h
      have hread := map_read_withLineEnd e hkeys size size' c rest
      rw [toOption_readAll_of_dropWhile_cons hcs, toOption_readAll_of_dropWhile_cons hdrop]
      rcases hfirst : (read size earlier c rest).toOption with _ | ⟨a, behind⟩
      · rw [hfirst] at hread
        rw [Option.map_eq_none_iff.mp hread]
        rfl
      · rw [hfirst] at hread
        obtain ⟨⟨a', behind'⟩, hfirst', heq⟩ := Option.map_eq_some_iff.mp hread
        obtain ⟨ha, rfl⟩ := Prod.mk.inj heq
        have hearlier : (a' :: earlier').map bare = (a :: earlier).map (bareWithLineEnd e) := by
          rw [List.map_cons, List.map_cons, ha, h]
        rw [hfirst']
        exact ih behind.length (length_lt_of_toOption_read hcs hfirst) hearlier behind rfl

end Attribute

/-- **The attributes of a tag with other line ends** are those of the tag, with other line ends in
their values. -/
theorem map_tagAttributes_withLineEnd (content : List Char) :
    (tagAttributes (withLineEnd e content)).toOption.map (List.map Attribute.bare)
      = (tagAttributes content).toOption.map (List.map (Attribute.bareWithLineEnd e)) := by
  rw [tagAttributes, tagAttributes, Text.dropWhile_withLineEnd e content rfl]
  exact Attribute.map_readAll_withLineEnd e rfl _ _ _

end DocMarkdown.Markup
