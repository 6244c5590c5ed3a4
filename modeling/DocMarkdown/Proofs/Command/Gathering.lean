import DocMarkdown.Proofs.Command.Outcome
import DocMarkdown.Proofs.Files.Listing

/-!
# Proofs/Command/Gathering — the files that a directory stands for

A directory among the inputs stands for the entries at or below it whose names end with `.xml`, each
of them once, in the order of a walk (`gather_directory`).  That these are files is not looked at: a
directory with such a name is taken for a file (`gather_takes_directory`).  Where there is none, the
directory stands for exactly its documentation files.
-/

namespace DocMarkdown

/-! ## Names of documentation files -/

/-- **The name of a documentation file** ends with `.xml`, and has something before it. -/
def IsDocumentationName (name : String) : Prop :=
  ∃ stem, stem ≠ "" ∧ name = stem ++ ".xml"

theorem isDocumentationName_iff {name : String} :
    IsDocumentationName name ↔ 4 < name.toList.length ∧ ".xml".toList <:+ name.toList := by
  constructor
  · rintro ⟨stem, hstem, rfl⟩
    rw [String.toList_append, List.length_append]
    have hlength : 0 < stem.toList.length := List.length_pos_iff.mpr (by simpa using hstem)
    exact ⟨Nat.add_lt_add_right hlength 4, List.suffix_append _ _⟩
  · rintro ⟨hlength, front, hfront⟩
    refine ⟨String.ofList front, ?_, String.toList_injective (by simp [← hfront])⟩
    rintro hempty
    rw [← hfront, show front = [] by simpa using hempty] at hlength
    contradiction

instance (name : String) : Decidable (IsDocumentationName name) :=
  decidable_of_iff _ isDocumentationName_iff.symm

theorem Path.isDocumentation_iff {p : Path} {name : String} (h : p.fileName? = some name) :
    p.isDocumentation ↔ IsDocumentationName name := by
  have hdot : '.' ∉ "xml".toList := by decide
  have hparts : ∀ stem, stem ++ "." ++ "xml" = stem ++ ".xml" := fun stem => String.append_assoc
  rw [Path.isDocumentation, beq_iff_eq, Path.extension?_eq_some_iff h]
  constructor
  · rintro ⟨-, stem, hstem, rfl⟩
    exact ⟨stem, hstem, hparts stem⟩
  · rintro ⟨stem, hstem, rfl⟩
    exact ⟨hdot, stem, hstem, (hparts stem).symm⟩

theorem Path.exists_fileName?_of_isDocumentation {p : Path} (h : p.isDocumentation) :
    ∃ name, p.fileName? = some name := by
  rw [Path.isDocumentation, beq_iff_eq, Path.extension?] at h
  obtain ⟨name, hname, -⟩ := Option.bind_eq_some_iff.mp h
  exact ⟨name, hname⟩

/-! ## What is gathered

A walk takes entries by the names of their paths.  On a disk with proper names (`Disk.Named`) these
are the names of the entries, and different entries have different paths, so that nothing is
gathered twice. -/

/-- Inputs stand for what each of them stands for, one behind the other. -/
theorem gather_append_cons (front : List Path) (p : Path) (behind : List Path) (w : World) :
    (gather (m := StateM World) (front ++ p :: behind) w).1
      = (gather (m := StateM World) front w).1 ++ w.filesOf p
        ++ (gather (m := StateM World) behind w).1 := by
  simp only [gather_eq, World.files, List.flatMap_append, List.flatMap_cons, List.append_assoc]

/-- **The places that a directory stands for**, told by the names that lead there from it. -/
def World.gathered (w : World) (p : Path) (place : Place) : List Place :=
  (w.disk.below place).filter fun names => (p.joinAll names).isDocumentation

section

variable {w : World} {p : Path} {place : Place}

theorem World.filesOf_directory (hplace : w.disk.resolve w.base p = .ok place)
    (hdirectory : w.disk.find? place = some .directory) :
    w.filesOf p = (w.gathered p place).map p.joinAll := by
  have hlisting : w.disk.listing w.base p = (w.disk.below place).map p.joinAll := by
    rw [Disk.listing, hplace]
  rw [World.filesOf, if_pos (Disk.isDirectory_iff.mpr ⟨place, hplace, hdirectory⟩), hlisting,
    List.filter_map]
  rfl

theorem World.mem_gathered {names : Place} :
    names ∈ w.gathered p place ↔
      (w.disk.find? (place ++ names)).isSome ∧ (p.joinAll names).isDocumentation := by
  rw [World.gathered, List.mem_filter, Disk.mem_below]

theorem World.pairwise_gathered (w : World) (p : Path) (place : Place) :
    (w.gathered p place).Pairwise Place.Before :=
  (Disk.pairwise_below w.disk place).filter _

/-- Places in the order of a walk are different, and so are their paths. -/
theorem World.nodup_gathered (hnamed : w.disk.Named) :
    ((w.gathered p place).map p.joinAll).Nodup := by
  refine List.pairwise_map.mpr ((w.pairwise_gathered p place).imp_of_mem ?_)
  intro names names' hnames hnames' hbefore heq
  refine hbefore.ne (Path.joinAll_injective ?_ ?_ heq)
  · exact hnamed.of_find? (World.mem_gathered.mp hnames).1
  · exact hnamed.of_find? (World.mem_gathered.mp hnames').1

theorem isDocumentation_joinAll (hnamed : w.disk.Named) {front : Place} {name : String}
    (hentry : (w.disk.find? (place ++ (front ++ [name]))).isSome) :
    (p.joinAll (front ++ [name])).isDocumentation ↔ IsDocumentationName name :=
  Path.isDocumentation_iff (Path.fileName?_joinAll p front (hnamed.of_find? hentry name (by simp)))

/-- **Where no directory has the name of a documentation file**, what is found is a file. -/
theorem World.mem_gathered_iff_file (hnamed : w.disk.Named)
    (hdirectory : w.disk.find? place = some .directory)
    (hfiles : ∀ names, w.disk.find? (place ++ names) = some .directory →
      (p.joinAll names).isDocumentation = false) {names : Place} :
    names ∈ w.gathered p place ↔ ∃ front name content, names = front ++ [name] ∧
      w.disk.find? (place ++ names) = some (.file content) ∧ IsDocumentationName name := by
  rw [World.mem_gathered]
  constructor
  · rintro ⟨hentry, hdocumentation⟩
    obtain ⟨_ | content, hx⟩ := Option.isSome_iff_exists.mp hentry
    · rw [hfiles names hx] at hdocumentation
      contradiction
    · -- a file lies below the directory, so it has a name
      rcases names.eq_nil_or_concat with rfl | ⟨front, name, rfl⟩
      · rw [List.append_nil, hdirectory] at hx
        cases hx
      · rw [List.concat_eq_append] at hentry hx hdocumentation ⊢
        exact ⟨front, name, content, rfl, hx,
          (isDocumentation_joinAll hnamed hentry).mp hdocumentation⟩
  · rintro ⟨front, name, content, rfl, hfile, hname⟩
    have hentry : (w.disk.find? (place ++ (front ++ [name]))).isSome := by rw [hfile]; rfl
    exact ⟨hentry, (isDocumentation_joinAll hnamed hentry).mpr hname⟩

/-- **A directory stands for the entries with names of documentation files** that are at or below
it, each of them once, in the order of a walk.  If none of them is a directory, they are the
documentation files below it. -/
theorem gather_directory (hnamed : w.disk.Named) (hplace : w.disk.resolve w.base p = .ok place)
    (hdirectory : w.disk.find? place = some .directory) :
    ∃ found : List Place,
      (∀ front behind, (gather (m := StateM World) (front ++ p :: behind) w).1
        = (gather (m := StateM World) front w).1 ++ found.map p.joinAll
          ++ (gather (m := StateM World) behind w).1) ∧
      found.Pairwise Place.Before ∧ (found.map p.joinAll).Nodup ∧
      (∀ names, names ∈ found ↔
        (w.disk.find? (place ++ names)).isSome ∧ (p.joinAll names).isDocumentation) ∧
      ((∀ names, w.disk.find? (place ++ names) = some .directory →
          (p.joinAll names).isDocumentation = false) →
        ∀ names, names ∈ found ↔ ∃ front name content, names = front ++ [name] ∧
          w.disk.find? (place ++ names) = some (.file content) ∧ IsDocumentationName name) := by
  refine ⟨w.gathered p place, fun front behind => ?_, w.pairwise_gathered p place,
    World.nodup_gathered hnamed, fun names => World.mem_gathered, fun hfiles names =>
      World.mem_gathered_iff_file hnamed hdirectory hfiles⟩
  rw [gather_append_cons, World.filesOf_directory hplace hdirectory]

end

/-- A disk with documentation files on two levels, and with entries that are none. -/
def shelf : Disk :=
  let made : Except FileError Disk := do
    let d ← Disk.empty.makeDirectory [] ⟨"in"⟩
    let d ← d.makeDirectory [] ⟨"in/a"⟩
    let d ← d.write [] ⟨"in/a/Lib.xml"⟩ "<summary>A</summary>"
    let d ← d.write [] ⟨"in/a/xml"⟩ ""
    let d ← d.write [] ⟨"in/a-b.xml"⟩ "<summary>B</summary>"
    d.write [] ⟨"in/.xml"⟩ ""
  made.toOption.getD .empty

theorem gather_directory_shelf :
    let w : World := .ofDisk shelf []
    let p : Path := ⟨"in"⟩
    w.disk.Named ∧ w.disk.resolve w.base p = .ok ["in"] ∧
      w.disk.find? ["in"] = some .directory ∧
      ∃ found : List Place,
        (gather (m := StateM World) [p] w).1 = found.map p.joinAll ∧
        found.Pairwise Place.Before ∧ (found.map p.joinAll).Nodup ∧
        ∀ names, names ∈ found ↔ ∃ front name content, names = front ++ [name] ∧
          w.disk.find? (["in"] ++ names) = some (.file content) ∧ IsDocumentationName name := by
  intro w p
  have hnamed : w.disk.Named := Disk.named_iff_places.mpr (by decide +kernel)
  have hplace : w.disk.resolve w.base p = .ok ["in"] := by decide +kernel
  have hdirectory : w.disk.find? ["in"] = some .directory := by decide +kernel
  have hfiles : ∀ names ∈ w.disk.below ["in"], w.disk.find? (["in"] ++ names) = some .directory →
      (p.joinAll names).isDocumentation = false := by
    decide +kernel
  obtain ⟨found, hgather, hbefore, hnodup, -, hfound⟩ := gather_directory hnamed hplace hdirectory
  have halone : (gather (m := StateM World) [p] w).1 = found.map p.joinAll :=
    (hgather [] []).trans (List.append_nil _)
  refine ⟨hnamed, hplace, hdirectory, found, halone, hbefore, hnodup, hfound fun names hnames => ?_⟩
  exact hfiles names (Disk.mem_below.mpr (by rw [hnames]; rfl)) hnames

/-- A disk with a directory that has the name of a documentation file. -/
def oddShelf : Disk :=
  let made : Except FileError Disk := do
    let d ← Disk.empty.makeDirectory [] ⟨"in"⟩
    let d ← d.write [] ⟨"in/a.xml"⟩ "<summary>A</summary>"
    d.makeDirectory [] ⟨"in/old.xml"⟩
  made.toOption.getD .empty

/-- **A directory is taken for a documentation file** by its name, and then cannot be read. -/
theorem gather_takes_directory :
    let w : World := .ofDisk oddShelf []
    (gather (m := StateM World) [⟨"in"⟩] w).1 = [⟨"in/a.xml"⟩, ⟨"in/old.xml"⟩] ∧
      w.disk.isDirectory w.base ⟨"in/old.xml"⟩ = true ∧
      w.page ⟨"in/old.xml"⟩ = .error (.notRead ⟨"in/old.xml"⟩ .isADirectory) ∧
      (execute (m := StateM World) ["-o", "out", "in"] w).1 = 1 := by
  decide +kernel

end DocMarkdown
