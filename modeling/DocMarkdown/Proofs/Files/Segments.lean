import DocMarkdown.Files.Path
import DocMarkdown.Proofs.Foundations

/-!
# Proofs/Files/Segments — what joins and names do to the segments of a path

A path is read by its segments, and segments make a path that has them (`segments_ofSegments`).  In
these terms an entry of a directory is one segment more (`segments_join`), the directories above one
are on the way to it (`of_mem_directories`), and the name that a page gets from a stem is one that
an entry can have (`isName_page`).
-/

namespace DocMarkdown

namespace Path

/-! ## Segments -/

theorem segments_ne_nil (p : Path) : p.segments ≠ [] := by
  simp [segments]

theorem slash_notMem_of_mem_segments {p : Path} {s : String} (h : s ∈ p.segments) :
    '/' ∉ s.toList := by
  obtain ⟨piece, hpiece, rfl⟩ := List.mem_map.1 h
  rw [String.toList_ofList]
  exact List.notMem_of_mem_splitOn hpiece

/-- Segments without a slash are those of the path that they make. -/
theorem segments_ofSegments {l : List String} (hl : l ≠ []) (h : ∀ s ∈ l, '/' ∉ s.toList) :
    (ofSegments l).segments = l := by
  have hsplit : (List.intercalate ['/'] (l.map String.toList)).splitOn '/' =
      l.map String.toList := List.splitOn_intercalate '/' (by simpa using h) (by simpa using hl)
  rw [segments, ofSegments, String.toList_intercalate, show "/".toList = ['/'] from rfl, hsplit,
    List.map_map]
  simp

/-- A path is absolute when an empty segment comes before others. -/
theorem isAbsolute_iff (p : Path) : p.isAbsolute ↔ ∃ s rest, p.segments = "" :: s :: rest := by
  rw [isAbsolute, beq_iff_eq, segments]
  rcases p.text.toList with _ | ⟨c, cs⟩
  · simp
  · obtain ⟨piece, pieces, h⟩ := List.exists_cons_of_ne_nil (List.splitOn_ne_nil '/' cs)
    by_cases hc : c = '/' <;> simp [List.splitOn_cons_eq_if_modifyHead, hc, h]

/-! ## Joins

A join adds a slash only where none stands at the end.  So the name takes the place of an empty
segment behind a last slash, and of the one segment of the empty path, and comes behind all segments
otherwise (`inside`). -/

/-- **The segments that lead to a directory**: none of them stands behind its last slash. -/
def inside (p : Path) : List String :=
  if p.text = "" ∨ p.text.toList.getLast? = some '/' then p.segments.dropLast else p.segments

/-- **An entry of a directory is one segment more.** -/
theorem segments_join (p : Path) {name : String} (h : '/' ∉ name.toList) :
    (p.join name).segments = p.inside ++ [name] := by
  have hname : name.toList.splitOn '/' = [name.toList] := List.splitOn_eq_singleton h
  rw [join, inside]
  split
  · next hlast =>
    simp only [segments, String.toList_append]
    rcases hlast with hempty | hlast
    · simp [hempty, hname]
    · obtain ⟨front, hfront⟩ := List.getLast?_eq_some_iff.1 hlast
      rw [hfront, List.append_assoc, List.singleton_append, List.splitOn_append_cons_self,
        List.splitOn_append_cons_self, hname]
      simp
  · simp only [segments, String.toList_append]
    rw [show "/".toList = ['/'] from rfl, List.append_assoc, List.singleton_append,
      List.splitOn_append_cons_self, hname]
    simp

/-- What leads to a directory is all of its path but an empty segment at the end. -/
theorem segments_eq_inside (p : Path) :
    p.segments = p.inside ∨ p.segments = p.inside ++ [""] := by
  rw [inside]
  split
  · next hlast =>
    right
    rcases hlast with hempty | hlast
    · simp [segments, hempty]
    · obtain ⟨front, hfront⟩ := List.getLast?_eq_some_iff.1 hlast
      rw [segments, hfront, List.splitOn_append_cons_self]
      simp
  · exact .inl rfl

/-- A directory and its entries start at one place. -/
theorem isAbsolute_join (p : Path) {name : String} (h : '/' ∉ name.toList) :
    (p.join name).isAbsolute = p.isAbsolute := by
  have hname : name.toList.head? ≠ some '/' := fun hhead => h (List.mem_of_mem_head? hhead)
  unfold join isAbsolute
  rcases htext : p.text.toList with _ | ⟨c, cs⟩
  · simp [String.toList_eq_nil_iff.1 htext, hname]
  · split <;> simp [htext]

theorem text_join_ne_empty (p : Path) {name : String} (h : name ≠ "") :
    (p.join name).text ≠ "" := by
  unfold join
  split <;> simp [h]

/-! ## The directories above -/

/-- The directory that pages go to, and those above it: the empty path needs none. -/
def directories (directory : Path) : List Path :=
  if directory.text = "" then [] else directory :: directory.ancestors

theorem of_mem_prefixesOf {backwards l : List String} (h : l ∈ prefixesOf backwards) :
    l <+: backwards.reverse ∧ l ≠ [] ∧ l ≠ [""] := by
  induction backwards with
  | nil => simp [prefixesOf] at h
  | cons segment front ih =>
    have hmore : front.reverse <+: (segment :: front).reverse := by simp
    unfold prefixesOf at h
    split at h
    · exact ⟨(ih h).1.trans hmore, (ih h).2⟩
    · next hstep =>
      rw [not_or] at hstep
      rcases List.mem_cons.1 h with rfl | h
      · refine ⟨List.prefix_refl _, by simp, fun heq => hstep.1 ?_⟩
        rw [List.reverse_eq_iff] at heq
        exact (List.cons.inj heq).1
      · exact ⟨(ih h).1.trans hmore, (ih h).2⟩

/-- **The directories above one are on the way to it.** -/
theorem of_mem_directories {directory p : Path} (h : p ∈ directory.directories) :
    p.segments <+: directory.segments ∧ p.isAbsolute = directory.isAbsolute := by
  unfold directories at h
  split at h
  · simp at h
  · rcases List.mem_cons.1 h with rfl | h
    · exact ⟨List.prefix_refl _, rfl⟩
    · obtain ⟨l, hl, rfl⟩ := List.mem_map.1 h
      obtain ⟨hfront, hne, hroot⟩ := of_mem_prefixesOf (List.mem_of_mem_tail hl)
      rw [List.reverse_reverse] at hfront
      have hsegments : (ofSegments l).segments = l :=
        segments_ofSegments hne fun s hs => slash_notMem_of_mem_segments (hfront.subset hs)
      refine ⟨by rwa [hsegments], Bool.eq_iff_iff.2 ?_⟩
      rw [isAbsolute_iff, isAbsolute_iff, hsegments]
      obtain ⟨behind, hbehind⟩ := hfront
      rw [← hbehind]
      rcases l with _ | ⟨first, _ | ⟨second, rest⟩⟩
      · exact absurd rfl hne
      · have hfirst : first ≠ "" := fun heq => hroot (by rw [heq])
        simp [hfirst]
      · simp

/-! ## Names

The name of a file is found among components, which leave empty segments and dots out, and an entry
is found by its segment.  On names the two agree: a name is one segment, and one that is no step. -/

/-- **A name that an entry can have**: one segment, and one that names no step. -/
structure IsName (name : String) : Prop where
  slash : '/' ∉ name.toList
  empty : name ≠ ""
  here : name ≠ "."
  up : name ≠ ".."

instance (name : String) : Decidable (IsName name) :=
  decidable_of_iff ('/' ∉ name.toList ∧ name ≠ "" ∧ name ≠ "." ∧ name ≠ "..")
    ⟨fun h => ⟨h.1, h.2.1, h.2.2.1, h.2.2.2⟩, fun h => ⟨h.slash, h.empty, h.here, h.up⟩⟩

theorem Component.name_of_ofInner? {s name : String} (h : ofInner? s = some (.name name)) :
    s = name ∧ s ≠ "" ∧ s ≠ "." ∧ s ≠ ".." := by
  unfold ofInner? at h
  split at h
  · simp at h
  · split at h
    · simp at h
    · simp_all

theorem Component.ofInner?_of_ne {s : String} (hempty : s ≠ "") (hhere : s ≠ ".") (hup : s ≠ "..") :
    ofInner? s = some (.name s) := by
  simp [ofInner?, hempty, hhere, hup]

theorem isName_of_mem_components {p : Path} {name : String} (h : .name name ∈ p.components) :
    IsName name := by
  have hinner : ∀ s ∈ p.segments, Component.ofInner? s = some (.name name) → IsName name := by
    intro s hs hname
    obtain ⟨rfl, hempty, hhere, hup⟩ := Component.name_of_ofInner? hname
    exact ⟨slash_notMem_of_mem_segments hs, hempty, hhere, hup⟩
  unfold components at h
  split at h
  · simp at h
  · next first others hsegments =>
    rw [hsegments] at hinner
    rw [List.mem_append, Option.mem_toList, List.mem_filterMap] at h
    obtain h | ⟨s, hs, h⟩ := h
    · refine hinner first (by simp) ?_
      unfold Component.ofFirst? at h
      split at h
      · split at h <;> simp at h
      · split at h
        · simp at h
        · exact h
    · exact hinner s (by simp [hs]) h

theorem isName_of_fileName? {p : Path} {name : String} (h : p.fileName? = some name) :
    IsName name := by
  unfold fileName? at h
  split at h
  · next other hlast =>
    obtain rfl := Option.some.inj h
    exact isName_of_mem_components (List.mem_of_getLast? hlast)
  · simp at h

/-- The name of the file is the last segment, if that is a name. -/
theorem fileName?_of_segments {p : Path} {front : List String} {name : String}
    (h : p.segments = front ++ [name]) (hempty : name ≠ "") (hhere : name ≠ ".")
    (hup : name ≠ "..") : p.fileName? = some name := by
  have hinner := Component.ofInner?_of_ne hempty hhere hup
  unfold fileName? components
  rw [h]
  cases front with
  | nil => simp [Component.ofFirst?, hempty, hhere, hinner]
  | cons first front => simp [List.filterMap_append, hinner]

theorem Component.name_of_ofFirst? {first name : String} {others : List String}
    (h : ofFirst? first others = some (.name name)) : first = name := by
  unfold ofFirst? at h
  split at h
  · split at h <;> simp at h
  · split at h
    · simp at h
    · exact (name_of_ofInner? h).1

theorem Component.of_ofInner?_eq_none {s : String} (h : ofInner? s = none) : s = "" ∨ s = "." := by
  unfold ofInner? at h
  split at h
  · assumption
  · split at h <;> simp at h

/-- **Behind the name of the file** only segments that name no step stand. -/
theorem exists_segments_of_fileName? {p : Path} {name : String} (h : p.fileName? = some name) :
    ∃ front behind, p.segments = front ++ name :: behind ∧
      ∀ s ∈ behind, s = "" ∨ s = "." := by
  unfold fileName? at h
  split at h
  · next other hlast =>
    obtain rfl := Option.some.inj h
    unfold components at hlast
    split at hlast
    · contradiction
    · next first others hsegments =>
      rw [hsegments]
      rw [List.getLast?_append, List.getLast?_filterMap] at hlast
      rcases hinner : others.reverse.findSome? Component.ofInner? with _ | c <;>
        rw [hinner] at hlast
      · have hfirst : Component.ofFirst? first others = some (.name other) := by
          rw [Option.none_or] at hlast
          exact Option.mem_toList.mp (List.mem_of_getLast? hlast)
        obtain rfl := Component.name_of_ofFirst? hfirst
        rw [List.findSome?_eq_none_iff] at hinner
        exact ⟨[], others, rfl, fun s hs =>
          Component.of_ofInner?_eq_none (hinner s (List.mem_reverse.mpr hs))⟩
      · obtain rfl := Option.some.inj hlast
        obtain ⟨behind, s, front, hothers, hs, hbehind⟩ := List.findSome?_eq_some_iff.mp hinner
        obtain ⟨rfl, -⟩ := Component.name_of_ofInner? hs
        refine ⟨first :: front.reverse, behind.reverse, ?_, fun t ht =>
          Component.of_ofInner?_eq_none (hbehind t (List.mem_reverse.mp ht))⟩
        rw [List.reverse_eq_iff] at hothers
        simp [hothers]
  · contradiction

/-! ### Stems -/

theorem of_dotted?_eq_some {cs before behind : List Char}
    (h : dotted? cs = some (before, behind)) :
    before ≠ [] ∧ '.' ∉ behind ∧ cs = before ++ '.' :: behind := by
  unfold dotted? at h
  dsimp only at h
  split at h
  · simp at h
  · simp at h
  · next c front hne hdrop =>
    simp only [Option.some.injEq, Prod.mk.injEq] at h
    obtain ⟨rfl, rfl⟩ := h
    have hdot : c = '.' := by
      have hhead := List.head?_dropWhile_not (fun c : Char => decide (c ≠ '.')) cs.reverse
      rw [hdrop] at hhead
      simpa using hhead
    have hcs : cs.reverse.takeWhile (· ≠ '.') ++ c :: front = cs.reverse := by
      rw [← hdrop, List.takeWhile_append_dropWhile]
    refine ⟨by simpa using hne, fun hmem => ?_, ?_⟩
    · simpa using List.all_eq_true.mp List.all_takeWhile _ (List.mem_reverse.mp hmem)
    · simpa [hdot] using (congrArg List.reverse hcs).symm

theorem dotted?_append {before behind : List Char} (hbefore : before ≠ []) (hdot : '.' ∉ behind) :
    dotted? (before ++ '.' :: behind) = some (before, behind) := by
  have hpos : ∀ c ∈ behind.reverse, decide (c ≠ '.') = true := by
    intro c hc
    rw [List.mem_reverse] at hc
    exact decide_eq_true fun heq => hdot (heq ▸ hc)
  have hreverse :
      (before ++ '.' :: behind).reverse = behind.reverse ++ '.' :: before.reverse := by
    simp
  unfold dotted?
  rw [hreverse, List.takeWhile_append_of_pos hpos, List.dropWhile_append_of_pos hpos]
  obtain ⟨c, front, hfront⟩ := List.exists_cons_of_ne_nil (List.reverse_ne_nil_iff.2 hbefore)
  have hback : before = (c :: front).reverse := by rw [← hfront, List.reverse_reverse]
  simp [hback]

/-- **The parts of a name** stand before and behind its last dot, if anything stands before it. -/
theorem dotted?_eq_some_iff {cs before behind : List Char} :
    dotted? cs = some (before, behind) ↔
      before ≠ [] ∧ '.' ∉ behind ∧ cs = before ++ '.' :: behind := by
  refine ⟨of_dotted?_eq_some, ?_⟩
  rintro ⟨hbefore, hdot, rfl⟩
  exact dotted?_append hbefore hdot

/-- A stem is a text in front of the dot of a name. -/
theorem of_stem? {p : Path} {stem : String} (h : p.stem? = some stem) :
    stem ≠ "" ∧ '/' ∉ stem.toList := by
  obtain ⟨name, hname, hstem⟩ := Option.map_eq_some_iff.1 h
  have hentry := isName_of_fileName? hname
  split at hstem
  · next before behind hdotted =>
    obtain ⟨hbefore, -, hcs⟩ := of_dotted?_eq_some hdotted
    subst hstem
    refine ⟨by simpa using hbefore, fun hslash => hentry.slash ?_⟩
    rw [String.toList_ofList] at hslash
    rw [hcs]
    exact List.mem_append_left _ hslash
  · subst hstem
    exact ⟨hentry.empty, hentry.slash⟩

/-- **The name that a page gets is one that an entry can have.** -/
theorem isName_page {p : Path} {stem : String} (h : p.stem? = some stem) :
    IsName (stem ++ ".md") := by
  have hlong : 3 ≤ (stem ++ ".md").length := by
    rw [String.length_append]
    exact Nat.le_add_left 3 _
  refine ⟨?_, ?_, ?_, ?_⟩
  · simpa using (of_stem? h).2
  all_goals
    intro heq
    rw [heq] at hlong
    exact absurd hlong (by decide)

/-- The stem of a page is the stem that it was named for. -/
theorem stem?_of_page {p : Path} {stem : String} (hstem : stem ≠ "")
    (h : p.fileName? = some (stem ++ ".md")) : p.stem? = some stem := by
  have hdotted : dotted? (stem ++ ".md").toList = some (stem.toList, ['m', 'd']) := by
    rw [String.toList_append]
    exact dotted?_append (by simpa using hstem) (by decide)
  rw [stem?, h, Option.map_some, hdotted]
  simp

end Path

end DocMarkdown
