import DocMarkdown.Proofs.Files.Change
import Mathlib.Data.List.Basic
import Mathlib.Data.List.Induction

/-!
# Proofs/Files/Listing — what a walk through a directory comes to

A disk keeps its places in the lexicographic order of their names, and this is the order of a walk
(`Place.Before`): a directory, then what lies in it, and siblings by name.  So the listing of a
directory has each place at or below it once, in that order (`mem_below`, `pairwise_below`).  Where
all entries have names that entries can have, different places have different paths
(`joinAll_injective`), and the name of a file is the last one on the way to it.
-/

namespace DocMarkdown

/-! ## The order of a walk

The places of a disk are sorted as lists of names.  That is the order in which a walk comes to them
which takes the entries of each directory by name, so the listing needs no sorting of its own. -/

/-- **Depth first**: a directory comes before what lies in it, and of two entries side by side, with
all that lies in them, the one with the lesser name comes first. -/
inductive Place.Before : Place → Place → Prop
  | inside (p : Place) (name : String) (rest : Place) : Before p (p ++ name :: rest)
  | beside (p : Place) {a b : String} (as bs : Place) (h : a < b) :
      Before (p ++ a :: as) (p ++ b :: bs)

namespace Place

variable {p q : Place}

theorem Before.cons (name : String) (h : Before p q) : Before (name :: p) (name :: q) := by
  cases h with
  | inside p a rest => exact .inside (name :: p) a rest
  | beside p as bs hlt => exact .beside (name :: p) as bs hlt

theorem Before.ne (h : Before p q) : p ≠ q := by
  cases h with
  | inside p name rest => simp
  | beside p as bs hlt =>
    intro heq
    obtain ⟨rfl, -⟩ := List.cons.inj (List.append_cancel_left heq)
    exact String.lt_irrefl _ hlt

theorem compare_cons (a b : String) (p q : Place) :
    compare (a :: p) (b :: q) = (compare a b).then (compare p q) := by
  rw [List.compare_eq_compareLex, List.compareLex_cons_cons]

theorem compare_append (front p q : Place) : compare (front ++ p) (front ++ q) = compare p q := by
  induction front with
  | nil => rfl
  | cons name front ih =>
    rw [List.cons_append, List.cons_append, compare_cons, Std.compare_self,
      Ordering.eq_then, ih]

/-- **The order of places is that of a walk.** -/
theorem before_of_compare (h : compare p q = .lt) : Before p q := by
  induction p generalizing q with
  | nil =>
    cases q with
    | nil => cases h
    | cons b q => exact .inside [] b q
  | cons a p ih =>
    cases q with
    | nil => cases h
    | cons b q =>
      rw [compare_cons] at h
      cases hab : compare a b with
      | lt => exact .beside [] p q (compareOfLessAndEq_eq_lt.mp hab)
      | eq =>
        rw [hab] at h
        rw [Std.LawfulEqCmp.compare_eq_iff_eq] at hab
        exact hab ▸ (ih h).cons a
      | gt => rw [hab] at h; cases h

end Place

namespace Disk

variable {d : Disk} {p : Place}

theorem mem_places {q : Place} : q ∈ d.places ↔ (d.find? q).isSome := by
  rw [places, Std.ExtTreeMap.mem_keys, Std.ExtTreeMap.mem_iff_isSome_getElem?]
  rfl

/-- **What is at or below a place** is told by the names that lead there. -/
theorem mem_below {names : Place} : names ∈ d.below p ↔ (d.find? (p ++ names)).isSome := by
  rw [below, List.mem_filterMap, ← mem_places]
  constructor
  · rintro ⟨q, hq, hnames⟩
    rwa [List.isPrefixOf?_eq_some_iff_append_eq.mp hnames]
  · exact fun h => ⟨_, h, List.isPrefixOf?_eq_some_iff_append_eq.mpr rfl⟩

/-- **A walk through a directory** is depth first, with siblings by name. -/
theorem pairwise_below (d : Disk) (p : Place) : (d.below p).Pairwise Place.Before := by
  refine List.pairwise_filterMap.mpr (Std.ExtTreeMap.ordered_keys.imp ?_)
  intro q r hlt names hnames names' hnames'
  rw [← List.isPrefixOf?_eq_some_iff_append_eq.mp hnames,
    ← List.isPrefixOf?_eq_some_iff_append_eq.mp hnames', Place.compare_append] at hlt
  exact Place.before_of_compare hlt

/-! ## Names on a disk

A disk by itself may have any string for the name of an entry.  A change adds an entry under the
last segment of its path, and only if that is no step, so on a disk with proper names they stay
proper. -/

/-- **Every entry has a name that an entry can have.** -/
def Named (d : Disk) : Prop :=
  ∀ p name, (d.find? (p ++ [name])).isSome → Path.IsName name

/-- So has all that lies on the way to it. -/
theorem Named.of_find? (hd : d.Named) {names : Place} (h : (d.find? (p ++ names)).isSome) :
    ∀ name ∈ names, Path.IsName name := by
  induction names using List.reverseRecOn with
  | nil => simp
  | append_singleton front name ih =>
    rw [← List.append_assoc] at h
    obtain ⟨x, hx⟩ := Option.isSome_iff_exists.mp h
    have hfront := ih (by rw [directory_of_find? hx]; rfl)
    intro other hother
    rcases List.mem_append.mp hother with hother | hother
    · exact hfront other hother
    · rw [List.mem_singleton.mp hother]
      exact hd _ _ h

/-- The names on a disk can be looked through. -/
theorem named_iff_places : d.Named ↔ ∀ q ∈ d.places, ∀ name ∈ q, Path.IsName name := by
  constructor
  · intro hd q hq
    exact hd.of_find? (p := []) (mem_places.mp hq)
  · intro h p name hentry
    exact h _ (mem_places.mpr hentry) name (by simp)

theorem Target.isName_of_name? {path : Path} {t : Target} {name : String}
    (ht : Target.of? path = some t) (hname : t.name? = some name) : Path.IsName name := by
  obtain ⟨hlast, slashes, -, hsegments⟩ := Target.of_of? ht
  have hmem : t.last ∈ path.segments := by simp [hsegments]
  unfold Target.name? at hname
  split at hname
  · contradiction
  · next hdots =>
    obtain rfl := Option.some.inj hname
    rw [not_or] at hdots
    exact ⟨Path.slash_notMem_of_mem_segments hmem, hlast, hdots.1, hdots.2⟩

variable {e : Disk} {base : Place} {path : Path}

/-- **New entries have names that entries can have.** -/
def NamesNew (d e : Disk) : Prop :=
  ∀ p name, d.find? (p ++ [name]) = none → (e.find? (p ++ [name])).isSome → Path.IsName name

theorem NamesNew.refl (d : Disk) : NamesNew d d := by
  intro p name hnone hsome
  rw [hnone] at hsome
  contradiction

theorem NamesNew.trans {f : Disk} (hde : NamesNew d e) (hef : NamesNew e f) : NamesNew d f := by
  intro p name hnone hsome
  rcases hx : e.find? (p ++ [name]) with _ | x
  · exact hef p name hx hsome
  · exact hde p name hnone (by rw [hx]; rfl)

/-- One entry more, with such a name. -/
theorem NamesNew.of_change {place : Place} {name : String} {x : Entry} (hname : Path.IsName name)
    (h : ∀ q, e.find? q = if q = place ++ [name] then some x else d.find? q) : NamesNew d e := by
  intro p other hnone hother
  rw [h] at hother
  split at hother
  · next heq =>
    obtain ⟨-, hlast⟩ := List.append_inj' heq rfl
    rwa [(List.cons.inj hlast).1]
  · rw [hnone] at hother
    contradiction

theorem NamesNew.of_makeDirectory (h : d.makeDirectory base path = .ok e) : NamesNew d e := by
  obtain ⟨t, place, name, ht, hname, -, -, hchange⟩ := of_makeDirectory_eq_ok h
  exact .of_change (Target.isName_of_name? ht hname) hchange

theorem NamesNew.of_store {content : ByteArray} (h : d.store base path content = .ok e) :
    NamesNew d e := by
  obtain ⟨t, place, name, ht, hname, -, -, -, -, hchange⟩ := of_store_eq_ok h
  exact .of_change (Target.isName_of_name? ht hname) hchange

end Disk

/-! ## Paths below a path -/

namespace Path

variable {p : Path} {names : Place} {name : String}

theorem joinAll_concat (p : Path) (names : Place) (name : String) :
    p.joinAll (names ++ [name]) = (p.joinAll names).join name := by
  rw [joinAll, joinAll, List.foldl_append]
  rfl

theorem inside_join (p : Path) (h : IsName name) : (p.join name).inside = p.inside ++ [name] := by
  rcases (p.join name).segments_eq_inside with hsegments | hsegments
  · rw [← hsegments, segments_join p h.slash]
  · rw [segments_join p h.slash] at hsegments
    obtain ⟨-, hlast⟩ := List.append_inj' hsegments rfl
    exact absurd (List.cons.inj hlast).1 h.empty

theorem inside_joinAll (p : Path) (h : ∀ name ∈ names, IsName name) :
    (p.joinAll names).inside = p.inside ++ names := by
  induction names using List.reverseRecOn with
  | nil => exact (List.append_nil _).symm
  | append_singleton names name ih =>
    obtain ⟨hnames, hname⟩ := List.forall_mem_append.mp h
    rw [joinAll_concat, inside_join _ (hname name List.mem_cons_self), ih hnames, List.append_assoc]

/-- **Different places have different paths.** -/
theorem joinAll_injective {names' : Place} (h : ∀ name ∈ names, IsName name)
    (h' : ∀ name ∈ names', IsName name) (heq : p.joinAll names = p.joinAll names') :
    names = names' := by
  have hinside := congrArg inside heq
  rw [inside_joinAll p h, inside_joinAll p h'] at hinside
  exact List.append_cancel_left hinside

/-- The name of a file is the last one on the way to it. -/
theorem fileName?_joinAll (p : Path) (names : Place) (h : IsName name) :
    (p.joinAll (names ++ [name])).fileName? = some name := by
  rw [joinAll_concat]
  exact fileName?_of_segments (segments_join _ h.slash) h.empty h.here h.up

/-- **A file has an extension** when its name ends with it behind a dot, and not only that. -/
theorem extension?_eq_some_iff (h : p.fileName? = some name) {extension : String} :
    p.extension? = some extension ↔
      '.' ∉ extension.toList ∧ ∃ stem, stem ≠ "" ∧ name = stem ++ "." ++ extension := by
  rw [extension?, h, Option.bind_some, Option.map_eq_some_iff]
  constructor
  · rintro ⟨⟨before, behind⟩, hdotted, rfl⟩
    obtain ⟨hbefore, hdot, hname⟩ := dotted?_eq_some_iff.mp hdotted
    refine ⟨by rwa [String.toList_ofList], String.ofList before, by simpa using hbefore, ?_⟩
    refine String.toList_injective ?_
    rw [hname]
    simp
  · rintro ⟨hdot, stem, hstem, rfl⟩
    refine ⟨(stem.toList, extension.toList), dotted?_eq_some_iff.mpr ⟨?_, hdot, ?_⟩, ?_⟩
    · simpa using hstem
    · simp
    · exact String.ofList_toList

end Path

end DocMarkdown
