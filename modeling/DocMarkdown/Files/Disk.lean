import Std.Data.ExtTreeMap

/-!
# Files/Disk — what a file system holds

A **place** is where an entry is: the names on the way down to it from the root.  A **disk** tells
what is at each place, a directory or a file with its bytes.  It is a tree by its type: the root is
a directory, and so is whatever an entry lies in.  Places are kept in lexicographic order of their
names, in which a directory comes before all that lies in it and siblings come by name.
-/

namespace DocMarkdown

/-- **A place**: the names on the way to it. -/
abbrev Place := List String

/-- **What is at a place.** -/
inductive Entry where
  | directory
  | file (content : ByteArray)

/-- Entries are compared by their bytes. -/
instance : DecidableEq Entry
  | .directory, .directory => .isTrue rfl
  | .directory, .file _ => .isFalse nofun
  | .file _, .directory => .isFalse nofun
  | .file a, .file b =>
    match ByteArray.instDecidableEq a b with
    | .isTrue h => .isTrue (congrArg Entry.file h)
    | .isFalse h => .isFalse fun he => h (Entry.file.inj he)

/-- **A disk**: a tree of entries. -/
structure Disk where
  /-- The entry at each place that has one. -/
  entries : Std.ExtTreeMap Place Entry
  /-- The root is a directory. -/
  root : entries[([] : Place)]? = some .directory
  /-- An entry lies in a directory. -/
  nested : ∀ (p : Place) (name : String), p ++ [name] ∈ entries → entries[p]? = some .directory

namespace Disk

/-- What is at a place. -/
def find? (d : Disk) (p : Place) : Option Entry :=
  d.entries[p]?

/-- What an entry lies in is a directory. -/
theorem directory_of_find? {d : Disk} {p : Place} {name : String} {e : Entry}
    (h : d.find? (p ++ [name]) = some e) : d.find? p = some .directory :=
  d.nested p name (Std.ExtTreeMap.mem_iff_isSome_getElem?.2 (by
    rw [show d.entries[p ++ [name]]? = some e from h]; rfl))

/-! ## Changes -/

/-- The disk with nothing but its root. -/
def empty : Disk where
  entries := (∅ : Std.ExtTreeMap Place Entry).insert [] .directory
  root := by simp
  nested := by
    intro p name h
    simp at h

/-- **A disk with one more entry**, in a directory that has no directory of that name. -/
def put (d : Disk) (p : Place) (name : String) (e : Entry)
    (hdir : d.find? p = some .directory) (hfree : d.find? (p ++ [name]) ≠ some .directory) :
    Disk where
  entries := d.entries.insert (p ++ [name]) e
  root := by
    rw [Std.ExtTreeMap.getElem?_insert, if_neg (by simp)]
    exact d.root
  nested := by
    intro q other h
    rw [Std.ExtTreeMap.mem_insert] at h
    have hq : d.find? q = some .directory := by
      rcases h with h | h
      · rw [Std.LawfulEqCmp.compare_eq_iff_eq] at h
        rw [← (List.append_inj' h rfl).1]
        exact hdir
      · exact d.nested q other h
    rw [Std.ExtTreeMap.getElem?_insert, if_neg]
    · exact hq
    · rw [Std.LawfulEqCmp.compare_eq_iff_eq]
      rintro rfl
      exact hfree hq

theorem find?_put {d : Disk} {p : Place} {name : String} {e : Entry}
    (hdir : d.find? p = some .directory) (hfree : d.find? (p ++ [name]) ≠ some .directory)
    (q : Place) :
    (d.put p name e hdir hfree).find? q = if q = p ++ [name] then some e else d.find? q := by
  unfold find? put
  rw [Std.ExtTreeMap.getElem?_insert]
  simp only [Std.LawfulEqCmp.compare_eq_iff_eq, eq_comm (a := q)]

/-! ## Views -/

/-- All places with an entry, in their order. -/
def places (d : Disk) : List Place :=
  d.entries.keys

/-- **A place and all below it**, as the names that lead there from it. -/
def below (d : Disk) (p : Place) : List Place :=
  d.places.filterMap fun q => p.isPrefixOf? q

end Disk

end DocMarkdown
