import DocMarkdown.Proofs.Command.Frame
import DocMarkdown.Proofs.Command.Gathering

/-!
# Proofs/Command/Regathering — what inputs stand for once the disk has grown

A disk that has got entries, but none that a walk would take (`GrowsAside`), gives an input no file
that it did not stand for before (`files_subset`): a directory that was there stands for the same
files, and one that is new for none.  Only an input that steps up out of a new directory can come to
stand for others, since it may lead to an old directory that it did not lead to before (`StepsOut`).
-/

namespace DocMarkdown

namespace World

/-- **Entries have been added aside**: all that was there is as it was, and what is new has a name
that an entry can have, but none of a documentation file. -/
structure GrowsAside (w w' : World) : Prop where
  base : w'.base = w.base
  grows : w.disk ≤ w'.disk
  names : Disk.NamesNew w.disk w'.disk
  aside : ∀ place name, w.disk.find? (place ++ [name]) = none →
    (w'.disk.find? (place ++ [name])).isSome → ¬ IsDocumentationName name

theorem filesOf_of_not_isDirectory {w : World} {p : Path} (h : ¬ w.disk.isDirectory w.base p) :
    w.filesOf p = [p] := by
  rw [filesOf, if_neg h]

namespace GrowsAside

variable {w w' : World} {p f : Path} {place : Place} {inputs : List Path}

theorem of_disk_eq (hbase : w'.base = w.base) (hdisk : w'.disk = w.disk) : w.GrowsAside w' where
  base := hbase
  grows := hdisk ▸ Disk.le_refl _
  names := hdisk ▸ .refl _
  aside place name hnone hsome := by
    rw [hdisk, hnone] at hsome
    contradiction

/-- **A walk takes nothing new.** -/
theorem not_isDocumentation (h : w.GrowsAside w') {front : Place} {name : String}
    (hnone : w.disk.find? (place ++ (front ++ [name])) = none)
    (hsome : (w'.disk.find? (place ++ (front ++ [name]))).isSome) :
    ¬ (p.joinAll (front ++ [name])).isDocumentation := by
  rw [← List.append_assoc] at hnone hsome
  have hname := h.names _ _ hnone hsome
  rw [Path.isDocumentation_iff (Path.fileName?_joinAll p front hname)]
  exact h.aside _ _ hnone hsome

/-- **A directory that was there stands for the same files.** -/
theorem mem_filesOf_iff (h : w.GrowsAside w') (hdir : w.disk.isDirectory w.base p) :
    f ∈ w'.filesOf p ↔ f ∈ w.filesOf p := by
  obtain ⟨place, hplace, hdirectory⟩ := Disk.isDirectory_iff.1 hdir
  have hplace' : w'.disk.resolve w'.base p = .ok place := by
    rw [h.base]
    exact Disk.resolve_mono h.grows hplace
  rw [filesOf_directory hplace hdirectory, filesOf_directory hplace' (h.grows _ _ hdirectory),
    List.mem_map, List.mem_map]
  refine exists_congr fun names => and_congr_left fun _ => ?_
  rw [mem_gathered, mem_gathered]
  refine and_congr_left fun hdocumentation => ⟨fun hsome => ?_, fun hsome => ?_⟩
  · by_contra hnone
    rw [Option.not_isSome_iff_eq_none] at hnone
    rcases names.eq_nil_or_concat with rfl | ⟨front, name, rfl⟩
    · rw [List.append_nil, hdirectory] at hnone
      contradiction
    · rw [List.concat_eq_append] at hnone hsome hdocumentation
      exact h.not_isDocumentation hnone hsome hdocumentation
  · obtain ⟨x, hx⟩ := Option.isSome_iff_exists.1 hsome
    rw [h.grows _ _ hx]
    rfl

/-- **A new directory stands for nothing**: neither it nor what lies in it has the name of a
documentation file. -/
theorem filesOf_eq_nil (h : w.GrowsAside w') (hplace : w'.disk.resolve w'.base p = .ok place)
    (hdirectory : w'.disk.find? place = some .directory) (hnew : w.disk.find? place = none) :
    w'.filesOf p = [] := by
  rw [filesOf_directory hplace hdirectory, List.map_eq_nil_iff, List.eq_nil_iff_forall_not_mem]
  intro names hnames
  obtain ⟨hsome, hdocumentation⟩ := mem_gathered.1 hnames
  rcases names.eq_nil_or_concat with rfl | ⟨front, name, rfl⟩
  · -- the path of the directory has its name, if it has one at all
    obtain ⟨name, hname⟩ := Path.exists_fileName?_of_isDocumentation hdocumentation
    change p.fileName? = some name at hname
    obtain ⟨parent, rfl⟩ := Disk.exists_concat_of_resolve hname hplace
    exact h.aside _ _ hnew (by rw [hdirectory]; rfl)
      ((Path.isDocumentation_iff hname).1 hdocumentation)
  · rw [List.concat_eq_append] at hsome hdocumentation
    exact h.not_isDocumentation (Disk.find?_append_of_none hnew _) hsome hdocumentation

/-- A path that leads to an old directory led there before, unless it steps out of a new one. -/
theorem isDirectory_back (h : w.GrowsAside w') (hout : ¬ w.StepsOut w' p)
    (hplace : w'.disk.resolve w'.base p = .ok place)
    (hdirectory : w'.disk.find? place = some .directory) (hold : w.disk.find? place ≠ none) :
    w.disk.isDirectory w.base p := by
  obtain ⟨x, hx⟩ := Option.ne_none_iff_exists'.1 hold
  have hup := isSome_of_not_stepsOut hout
  rw [h.base] at hplace hup
  refine Disk.isDirectory_iff.2
    ⟨place, Disk.resolve_back_of_stepsUp h.grows hup hplace (by rw [hx]; rfl), ?_⟩
  rw [hx, ← h.grows _ _ hx, hdirectory]

/-- **An input stands for no other files than before.** -/
theorem filesOf_subset (h : w.GrowsAside w') (hout : ¬ w.StepsOut w' p) :
    w'.filesOf p ⊆ w.filesOf p := by
  by_cases hdir : w.disk.isDirectory w.base p
  · exact fun f hf => (h.mem_filesOf_iff hdir).1 hf
  · by_cases hdir' : w'.disk.isDirectory w'.base p
    · obtain ⟨place, hplace, hdirectory⟩ := Disk.isDirectory_iff.1 hdir'
      have hnew : w.disk.find? place = none := by
        by_contra hsome
        exact hdir (h.isDirectory_back hout hplace hdirectory hsome)
      rw [h.filesOf_eq_nil hplace hdirectory hnew]
      exact List.nil_subset _
    · rw [filesOf_of_not_isDirectory hdir, filesOf_of_not_isDirectory hdir']
      exact List.Subset.refl _

/-- **Inputs stand for no other files than before.** -/
theorem files_subset (h : w.GrowsAside w') (hout : ∀ p ∈ inputs, ¬ w.StepsOut w' p) :
    w'.files inputs ⊆ w.files inputs := by
  intro f hf
  obtain ⟨p, hp, hfp⟩ := List.mem_flatMap.1 hf
  exact List.mem_flatMap.2 ⟨p, hp, h.filesOf_subset (hout p hp) hfp⟩

/-- A file is found again where its input is as it was: a directory before, or none behind. -/
theorem mem_filesOf (h : w.GrowsAside w')
    (hinput : w.disk.isDirectory w.base p ∨ ¬ w'.disk.isDirectory w'.base p)
    (hf : f ∈ w.filesOf p) : f ∈ w'.filesOf p := by
  by_cases hdir : w.disk.isDirectory w.base p
  · exact (h.mem_filesOf_iff hdir).2 hf
  · rw [filesOf_of_not_isDirectory (hinput.resolve_left hdir)]
    rwa [filesOf_of_not_isDirectory hdir] at hf

end GrowsAside

end World

end DocMarkdown
