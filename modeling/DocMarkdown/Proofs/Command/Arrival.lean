import DocMarkdown.Proofs.Command.Frame

/-!
# Proofs/Command/Arrival — which pages arrive in a directory

A run into a directory writes the page of each file under the stem of the file, unless something is
there.  The test for that sees what the run itself has made, so an input can be left out behind
another one with its stem (`lost_of_sameStem`).  Where files of one stem have one page, nothing was
there before and no path steps out of a directory that the run itself makes (`World.StepsOut`),
every page arrives (`execute_delivers`).

The loop keeps one invariant, `Delivered`: the disk is the one it started with, and the pages of the
files so far.
-/

namespace DocMarkdown

/-! ## One file -/

/-- A file that goes well finds the directory. -/
theorem exists_at_of_runInto {o : Options} (hdry : o.dryRun = false) {directory file : Path}
    {w w' : World} (h : outcome (runInto o directory file) w = (.ok (), w')) :
    ∃ place, w.disk.At w.base directory place := by
  obtain ⟨stem, hstem, ⟨hpresent, -⟩ | ⟨-, page, d, -, hwrite, -⟩⟩ :=
    of_outcome_runInto_eq_ok hdry h
  · obtain ⟨place, _, hplace, -⟩ :=
      (Disk.isPresent_join_iff (Path.isName_page hstem)).1 hpresent
    exact ⟨place, hplace⟩
  · obtain ⟨place, hplace, -⟩ := Disk.of_write_join_eq_ok (Path.isName_page hstem) hwrite
    exact ⟨place, hplace⟩

/-- A run over some file that goes well finds the directory, before the first of them. -/
theorem exists_at_of_forM {o : Options} (hdry : o.dryRun = false) {directory file : Path}
    {files : List Path} (hfile : file ∈ files) {w w' : World}
    (h : outcome (files.forM (runInto o directory)) w = (.ok (), w')) :
    ∃ place, w.disk.At w.base directory place := by
  obtain ⟨first, rest, rfl⟩ := List.exists_cons_of_ne_nil (List.ne_nil_of_mem hfile)
  rw [outcome_forM_cons, outcome_bind_eq_ok] at h
  obtain ⟨⟨⟩, _, hfirst, -⟩ := h
  exact exists_at_of_runInto hdry hfirst

/-! ## The pages so far

A page that the run has written may stand where a later page should go, or be read as one of the
later files.  Under `Clear` neither does any harm: in the first case the two pages are the same, and
the second cannot be, since the file of that stem was read elsewhere (`find?_back`). -/

/-- **The page of a file, as an entry**: in the directory at `place`, by the stem of the file. -/
def World.Puts (start : World) (place : Place) (file : Path) (q : Place) (x : Entry) : Prop :=
  ∃ stem page, file.stem? = some stem ∧ start.page file = .ok page ∧
    q = place ++ [stem ++ ".md"] ∧ x = .file page.toUTF8

/-- **The disk is the one at the start and the pages of the files that are done.** -/
structure Delivered (start : World) (place : Place) (done : List Path) (w : World) : Prop where
  base : w.base = start.base
  grows : start.disk ≤ w.disk
  new : ∀ q x, w.disk.find? q = some x →
    start.disk.find? q = some x ∨ ∃ file ∈ done, start.Puts place file q x
  pages : ∀ file ∈ done, ∃ q x, start.Puts place file q x ∧ w.disk.find? q = some x

/-- **Pages do not get into each other's way** in the directory at `place`: files of one stem have
one page, and no page has its entry yet. -/
structure World.Clear (start : World) (place : Place) (files : List Path) : Prop where
  same : ∀ f ∈ files, ∀ g ∈ files, f.stem? = g.stem? →
    ∀ page, start.page f = .ok page → start.page g = .ok page
  fresh : ∀ file ∈ files, ∀ stem, file.stem? = some stem →
    start.disk.find? (place ++ [stem ++ ".md"]) = none

theorem eq_of_append_md {place : Place} {stem other : String}
    (h : place ++ [stem ++ ".md"] = place ++ [other ++ ".md"]) : stem = other := by
  have hname := List.append_cancel_left h
  exact (String.append_left_inj ".md").1 (List.cons.inj hname).1

/-- Files of one stem are the same entry. -/
theorem World.Puts.entry_unique {start : World} {place : Place} {files : List Path} {f g : Path}
    {q : Place} {x y : Entry} (hclear : start.Clear place files) (hf : f ∈ files) (hg : g ∈ files)
    (hx : start.Puts place f q x) (hy : start.Puts place g q y) : x = y := by
  obtain ⟨stem, page, hstem, hpage, rfl, rfl⟩ := hx
  obtain ⟨stem', page', hstem', hpage', hq, rfl⟩ := hy
  obtain rfl := eq_of_append_md hq
  have hsame := hclear.same f hf g hg (hstem.trans hstem'.symm) page hpage
  rw [Except.ok.inj (hsame.symm.trans hpage')]

namespace Delivered

variable {start w w' : World} {place : Place} {files done : List Path} {file : Path}

theorem refl (start : World) (place : Place) : Delivered start place [] start where
  base := rfl
  grows := Disk.le_refl _
  new := fun _ _ h => .inl h
  pages := nofun

/-- An entry in the place of a page is a page of that stem. -/
theorem puts_of_find? (hclear : start.Clear place files) (hdone : done ⊆ files)
    (hfile : file ∈ files) (h : Delivered start place done w) {stem : String}
    (hstem : file.stem? = some stem) {x : Entry}
    (hx : w.disk.find? (place ++ [stem ++ ".md"]) = some x) :
    start.Puts place file (place ++ [stem ++ ".md"]) x := by
  obtain hold | ⟨other, hother, stem', page, hstem', hpage, hq, rfl⟩ := h.new _ x hx
  · rw [hclear.fresh file hfile stem hstem] at hold
    cases hold
  · obtain rfl := eq_of_append_md hq
    exact ⟨stem, page, hstem,
      hclear.same other (hdone hother) file hfile (hstem'.trans hstem.symm) page hpage, rfl, rfl⟩

/-- Pages are no directories. -/
theorem directory_back (h : Delivered start place done w) {q : Place}
    (hq : w.disk.find? q = some .directory) : start.disk.find? q = some .directory := by
  obtain hq | ⟨_, _, _, _, _, _, _, hentry⟩ := h.new q _ hq
  · exact hq
  · cases hentry

/-- **No page of the run is read as a file**: a file of its stem was read elsewhere at the start. -/
theorem find?_back (hclear : start.Clear place files) (hdone : done ⊆ files) (hfile : file ∈ files)
    (h : Delivered start place done w) {q : Place} {content : ByteArray}
    (hq : w.disk.resolve start.base file = .ok q)
    (hcontent : w.disk.find? q = some (.file content)) :
    start.disk.find? q = some (.file content) := by
  obtain hold | ⟨other, hother, stem, page, hstem, hpage, rfl, -⟩ := h.new q _ hcontent
  · exact hold
  · exfalso
    have hsame := Disk.stem?_of_resolve (Path.of_stem? hstem).1 hq hcontent
    have hstart := hclear.same other (hdone hother) file hfile (hstem.trans hsame.symm) page hpage
    obtain ⟨_, hread, -⟩ := World.page_eq_ok.1 hstart
    obtain ⟨q', _, hq', hcontent', -⟩ := Disk.read_eq_ok.1 hread
    obtain rfl := Except.ok.inj ((Disk.resolve_mono h.grows hq').symm.trans hq)
    rw [hclear.fresh other (hdone hother) stem hstem] at hcontent'
    cases hcontent'

/-- **A page that a file has now it had at the start.** -/
theorem page_back (hclear : start.Clear place files) (hdone : done ⊆ files) (hfile : file ∈ files)
    (h : Delivered start place done w) {page : String} (hpage : w.page file = .ok page) :
    start.page file = .ok page := by
  obtain ⟨text, hread, hconvert⟩ := World.page_eq_ok.1 hpage
  obtain ⟨q, content, hq, hcontent, htext⟩ := Disk.read_eq_ok.1 hread
  rw [h.base] at hq
  have hold := h.find?_back hclear hdone hfile hq hcontent
  have hfollow : start.disk.resolve start.base file = .ok q := by
    rw [Disk.resolve_eq_ok] at hq ⊢
    exact ⟨hq.1, Disk.follow_back_of_newFiles h.grows (fun _ => h.directory_back) hq.2
      (by rw [hold]; rfl)⟩
  exact World.page_eq_ok.2 ⟨text, Disk.read_eq_ok.2 ⟨q, content, hfollow, hold, htext⟩, hconvert⟩

/-- One more page. -/
theorem append (hclear : start.Clear place files) (hdone : done ⊆ files) (hfile : file ∈ files)
    (h : Delivered start place done w) {q : Place} {x : Entry} (hputs : start.Puts place file q x)
    (hbase : w'.base = w.base)
    (hchange : ∀ p, w'.disk.find? p = if p = q then some x else w.disk.find? p) :
    Delivered start place (done ++ [file]) w' := by
  have hfresh : start.disk.find? q = none := by
    obtain ⟨stem, page, hstem, -, rfl, -⟩ := hputs
    exact hclear.fresh file hfile stem hstem
  refine ⟨hbase.trans h.base, fun p y hp => ?_, fun p y hp => ?_, fun other hother => ?_⟩
  · rw [hchange, if_neg]
    · exact h.grows p y hp
    · rintro rfl
      rw [hfresh] at hp
      cases hp
  · rw [hchange] at hp
    split at hp
    · next hpq =>
      obtain rfl := Option.some.inj hp
      exact .inr ⟨file, by simp, hpq ▸ hputs⟩
    · obtain hp | ⟨other, hother, hputs'⟩ := h.new p y hp
      · exact .inl hp
      · exact .inr ⟨other, List.mem_append_left _ hother, hputs'⟩
  · rcases List.mem_append.1 hother with hother | hother
    · obtain ⟨p, y, hputs', hp⟩ := h.pages other hother
      refine ⟨p, y, hputs', ?_⟩
      rw [hchange]
      split
      · next hpq => rw [hputs.entry_unique hclear hfile (hdone hother) (hpq ▸ hputs')]
      · exact hp
    · obtain rfl := List.mem_singleton.1 hother
      exact ⟨q, x, hputs, by rw [hchange, if_pos rfl]⟩

/-- **One file more is delivered.** -/
theorem step {o : Options} (hdry : o.dryRun = false) {directory : Path}
    (hplace : start.disk.At start.base directory place) (hclear : start.Clear place files)
    (hdone : done ⊆ files) (hfile : file ∈ files) (h : Delivered start place done w)
    (hrun : outcome (runInto o directory file) w = (.ok (), w')) :
    Delivered start place (done ++ [file]) w' := by
  have hbase : w'.base = w.base := by
    have hstage := keeps_runInto o.spares_stage directory file w
    rw [hrun] at hstage
    exact congrArg Prod.fst hstage
  have hat : w.disk.At w.base directory place := by
    rw [h.base]
    exact hplace.mono h.grows
  obtain ⟨stem, hstem, ⟨hpresent, -, hleft⟩ | ⟨-, page, d, hpage, hwrite, hwritten⟩⟩ :=
    of_outcome_runInto_eq_ok hdry hrun
  · obtain ⟨other, x, hother, hx⟩ := (Disk.isPresent_join_iff (Path.isName_page hstem)).1 hpresent
    obtain rfl := hother.unique hat
    refine h.append hclear hdone hfile (h.puts_of_find? hclear hdone hfile hstem hx) hbase
      fun p => ?_
    rw [hleft, World.disk_report]
    split
    · next hp => rw [hp, hx]
    · rfl
  · obtain ⟨other, hother, -, hchange⟩ :=
      Disk.of_write_join_eq_ok (Path.isName_page hstem) hwrite
    obtain rfl := hother.unique hat
    refine h.append hclear hdone hfile
      ⟨stem, page, hstem, h.page_back hclear hdone hfile hpage, rfl, rfl⟩ hbase fun p => ?_
    rw [hwritten, World.disk_report]
    exact hchange p

end Delivered

/-- **A run over all files delivers all of them.** -/
theorem delivered_of_forM {o : Options} (hdry : o.dryRun = false) {directory : Path}
    {start w : World} {place : Place} {files : List Path}
    (hplace : start.disk.At start.base directory place) (hclear : start.Clear place files)
    (h : outcome (files.forM (runInto o directory)) start = (.ok (), w)) :
    Delivered start place files w := by
  refine forM_induction (Delivered start place) (.refl start place) ?_ h
  intro front file behind mid mid' hfiles hmid hrun
  refine hmid.step hdry hplace hclear ?_ ?_ hrun <;> simp [hfiles]

/-! ## The directory

That pages are absent is said of the disk before the run, and the loop begins behind the making of
the directory. In between, a page can come to be there only by a path that steps up out of what was
made. -/

/-- **The directory of the pages is there**; the empty path is where one is. -/
def World.HasDirectory (w : World) (directory : Path) : Prop :=
  directory.text = "" ∨ w.disk.isDirectory w.base directory

theorem World.hasDirectory_of_at {directory : Path} {w : World} {place : Place}
    (h : w.disk.At w.base directory place) : w.HasDirectory directory := by
  by_cases htext : directory.text = ""
  · exact .inl htext
  · exact .inr (Disk.isDirectory_iff.2 ⟨place, h.resolve htext, h.directory⟩)

/-- A directory that is there is not touched. -/
theorem prepareDirectory_of_hasDirectory {directory : Path} {w : World}
    (h : w.HasDirectory directory) :
    outcome (prepareDirectory directory) w = (.ok (), w) := by
  rw [outcome_prepareDirectory, Path.directories]
  split
  · rfl
  · next hne =>
    have hdirectory := h.resolve_left hne
    have hmade := Disk.makeDirectory_of_isDirectory hdirectory
    rw [makeDirectories_cons, hmade]
    dsimp only
    rw [World.settle, hmade]
    dsimp only
    rw [if_pos hdirectory]
    rfl

section Prepared

variable {directory : Path} {files : List Path} {w start : World}

/-- **What is made on the way to a directory does not lie in it**, unless the way steps out of what
is new: nothing leads from a new entry in it back to it. -/
theorem find?_concat_of_prepareDirectory
    (hmake : outcome (prepareDirectory directory) w = (.ok (), start))
    (hout : ¬ w.StepsOut start directory) {place : Place}
    (hplace : start.disk.At start.base directory place) (hnew : w.disk.find? place = none)
    (name : String) : start.disk.find? (place ++ [name]) = none := by
  have hmade := moves_prepareDirectory hmake
  have hnone := Disk.find?_append_of_none hnew [name]
  by_contra hsome
  obtain ⟨-, p, hp, hresolve⟩ :=
    hmade.changes.directory_of_ne (fun heq => hsome (heq.trans hnone))
  have htext : directory.text ≠ "" := by
    intro hempty
    rw [Path.directories, if_pos hempty] at hp
    contradiction
  obtain ⟨⟨rest, hrest⟩, habsolute⟩ := Path.of_mem_directories hp
  have hstart : p.start w.base = directory.start start.base := by
    rw [Path.start, Path.start, habsolute, hmade.base]
  have hmid := (Disk.resolve_eq_ok.1 hresolve).2
  rw [hstart] at hmid
  have hwhole := (Disk.resolve_eq_ok.1 (hplace.resolve htext)).2
  rw [← hrest, Disk.foldlM_follow_append] at hwhole
  obtain ⟨mid, hmid', hback⟩ := hwhole
  obtain rfl := Except.ok.inj (hmid'.symm.trans hmid)
  have hup : ∀ q, start.disk.StepsUp (place ++ [name]) rest q → (w.disk.find? q).isSome := by
    rintro q ⟨front, behind, rfl, hfront, hdir⟩
    refine World.isSome_of_not_stepsOut hout q ⟨p.segments ++ front, behind, ?_, ?_, hdir⟩
    · rw [← hrest, List.append_assoc]
    · exact Disk.foldlM_follow_append.2 ⟨_, hmid, hfront⟩
  have hlength := (Disk.prefix_of_stepsUp hup hnone hback).length_le
  rw [List.length_append, List.length_singleton] at hlength
  omega

/-- **A page that is found behind the making of its directory** lies in a directory that was there,
as long as the path does not step out of what is new. -/
theorem hasDirectory_of_isPresent_join
    (hmake : outcome (prepareDirectory directory) w = (.ok (), start))
    (hout : ¬ w.StepsOut start directory) {name : String} (hname : Path.IsName name)
    (h : start.disk.isPresent start.base (directory.join name)) : w.HasDirectory directory := by
  have hmade := moves_prepareDirectory hmake
  obtain ⟨place, x, hplace, hx⟩ := (Disk.isPresent_join_iff hname).1 h
  rcases hold : w.disk.find? place with _ | y
  · rw [find?_concat_of_prepareDirectory hmake hout hplace hold name] at hx
    contradiction
  · have hat := hplace.back (hmade.grows rfl) (World.isSome_of_not_stepsOut hout)
      (by rw [hold]; rfl)
    rw [hmade.base] at hat
    exact World.hasDirectory_of_at hat

variable (hmake : outcome (prepareDirectory directory) w = (.ok (), start))
  (hout : ∀ p ∈ directory :: files, ¬ w.StepsOut start p)

include hmake hout

/-- Making the directory takes no page from a file and gives none to one. -/
theorem page_prepareDirectory_iff {file : Path} (hfile : file ∈ files) {page : String} :
    start.page file = .ok page ↔ w.page file = .ok page :=
  ⟨(moves_prepareDirectory hmake).page_back (hout file (List.mem_cons_of_mem _ hfile)),
    (moves_prepareDirectory hmake).page⟩

/-- Making the directory puts nothing in the place of a page. -/
theorem find?_of_prepareDirectory {place : Place}
    (hplace : start.disk.At start.base directory place) {name : String}
    (hname : Path.IsName name) (habsent : w.disk.isPresent w.base (directory.join name) = false) :
    start.disk.find? (place ++ [name]) = none := by
  by_contra hsome
  have hpresent : start.disk.isPresent start.base (directory.join name) :=
    (hplace.isPresent_join_iff hname).2 (Option.isSome_iff_ne_none.2 hsome)
  have hthere :=
    hasDirectory_of_isPresent_join hmake (hout directory List.mem_cons_self) hname hpresent
  rw [prepareDirectory_of_hasDirectory hthere] at hmake
  obtain rfl := (Prod.mk.inj hmake).2
  rw [hpresent] at habsent
  contradiction

/-- Pages that were absent and agreed before the directory was made are out of each other's way. -/
theorem clear_of_prepareDirectory {place : Place}
    (hplace : start.disk.At start.base directory place)
    (habsent : ∀ file ∈ files, ∀ stem, file.stem? = some stem →
      w.disk.isPresent w.base (directory.join (stem ++ ".md")) = false)
    (hsame : ∀ f ∈ files, ∀ g ∈ files, f.stem? = g.stem? →
      ∀ page, w.page f = .ok page → w.page g = .ok page) :
    start.Clear place files where
  same f hf g hg hstem page hpage :=
    (page_prepareDirectory_iff hmake hout hg).2
      (hsame f hf g hg hstem page ((page_prepareDirectory_iff hmake hout hf).1 hpage))
  fresh file hfile stem hstem :=
    find?_of_prepareDirectory hmake hout hplace (Path.isName_page hstem)
      (habsent file hfile stem hstem)

end Prepared

/-! ## The whole run -/

theorem runEach_of_execute {arguments : List String} {o : Options} {directory : Path}
    {w w' : World} (hcommand : Command.ofArguments arguments = .ok (.convert o))
    (hout : o.output = .path directory) (hconcat : o.concat = false)
    (hrun : execute (m := StateM World) arguments w = (0, w')) :
    outcome (runEach o directory (w.files o.inputs)) w = (.ok (), w') := by
  have hconvert := outcome_of_execute_eq_zero hrun
  rw [runArguments_of_convert hcommand] at hconvert
  obtain ⟨hjoined, -⟩ | ⟨-, hway⟩ := of_outcome_run_of_path_eq_ok hout hconvert
  · exact absurd (hconcat.symm.trans hjoined) nofun
  · exact hway

/-- **Every page arrives.**  In a run into a directory that succeeds, before which no page was
there, every file has its page by its stem and in the words that it had before the run: where files
of one stem have one page and no path steps out of a directory that the run makes. -/
theorem execute_delivers {arguments : List String} {o : Options} {directory : Path} {w w' : World}
    (hcommand : Command.ofArguments arguments = .ok (.convert o))
    (hpath : o.output = .path directory) (hconcat : o.concat = false) (hdry : o.dryRun = false)
    (hrun : execute (m := StateM World) arguments w = (0, w'))
    (habsent : ∀ file ∈ w.files o.inputs, ∀ stem, file.stem? = some stem →
      w.disk.isPresent w.base (directory.join (stem ++ ".md")) = false)
    (hsame : ∀ f ∈ w.files o.inputs, ∀ g ∈ w.files o.inputs, f.stem? = g.stem? →
      ∀ page, w.page f = .ok page → w.page g = .ok page)
    (hout : ∀ p ∈ directory :: w.files o.inputs, ¬ w.StepsOut w' p) :
    ∀ file ∈ w.files o.inputs, ∃ stem text page, file.stem? = some stem ∧
      w.disk.read w.base file = .ok text ∧ convert text = .ok page ∧
      w'.disk.read w'.base (directory.join (stem ++ ".md")) = .ok page := by
  have hrunEach := runEach_of_execute hcommand hpath hconcat hrun
  rw [outcome_runEach hdry, outcome_bind_eq_ok] at hrunEach
  obtain ⟨⟨⟩, start, hmake, hloop⟩ := hrunEach
  have hpages := moves_forM_runInto hloop
  have hmade : ∀ p ∈ directory :: w.files o.inputs, ¬ w.StepsOut start p := fun p hp hstep =>
    hout p hp (hstep.mono hpages.base hpages.changes.stands)
  intro file hfile
  obtain ⟨place, hplace⟩ : ∃ place, start.disk.At start.base directory place :=
    exists_at_of_forM hdry hfile hloop
  have hclear := clear_of_prepareDirectory hmake hmade hplace habsent hsame
  have hdelivered := delivered_of_forM hdry hplace hclear hloop
  obtain ⟨_, _, ⟨stem, page, hstem, hpage, rfl, rfl⟩, hfound⟩ := hdelivered.pages file hfile
  obtain ⟨text, hread, hconvert⟩ :=
    World.page_eq_ok.1 ((page_prepareDirectory_iff hmake hmade hfile).1 hpage)
  refine ⟨stem, text, page, hstem, hread, hconvert, ?_⟩
  rw [hdelivered.base]
  exact Disk.read_join_of_find? (Path.isName_page hstem) (hplace.mono hdelivered.grows) hfound

/-- A disk with two files of one name, each in a directory of its own. -/
def twoLibs : Disk :=
  let made : Except FileError Disk := do
    let d ← Disk.empty.makeDirectory [] ⟨"a"⟩
    let d ← d.makeDirectory [] ⟨"b"⟩
    let d ← d.write [] ⟨"a/Lib.xml"⟩ "<summary>A</summary>"
    d.write [] ⟨"b/Lib.xml"⟩ "<summary>B</summary>"
  made.toOption.getD .empty

/-- One file, asked for twice, arrives. -/
theorem execute_delivers_twice :
    let w : World := .ofDisk twoLibs []
    let o : Options :=
      ⟨[⟨"a/Lib.xml"⟩, ⟨"a/Lib.xml"⟩], .path ⟨"out"⟩, false, false, false, false⟩
    ∃ w', execute (m := StateM World) ["-o", "out", "a/Lib.xml", "a/Lib.xml"] w = (0, w') ∧
      ∀ file ∈ w.files o.inputs, ∃ stem text page, file.stem? = some stem ∧
        w.disk.read w.base file = .ok text ∧ convert text = .ok page ∧
        w'.disk.read w'.base ((⟨"out"⟩ : Path).join (stem ++ ".md")) = .ok page := by
  intro w o
  have hcode : (execute (m := StateM World) ["-o", "out", "a/Lib.xml", "a/Lib.xml"] w).1 = 0 := by
    decide +kernel
  have hfiles : w.files o.inputs = [⟨"a/Lib.xml"⟩, ⟨"a/Lib.xml"⟩] := by decide +kernel
  have hstem : (⟨"a/Lib.xml"⟩ : Path).stem? = some "Lib" := by decide +kernel
  have habsent : w.disk.isPresent w.base ((⟨"out"⟩ : Path).join ("Lib" ++ ".md")) = false := by
    decide +kernel
  have hup : ".." ∉ (⟨"out"⟩ : Path).segments ∧ ".." ∉ (⟨"a/Lib.xml"⟩ : Path).segments := by
    decide +kernel
  rcases hrun : execute (m := StateM World) ["-o", "out", "a/Lib.xml", "a/Lib.xml"] w
    with ⟨code, w'⟩
  rw [hrun] at hcode
  obtain rfl : code = 0 := hcode
  refine ⟨w', rfl, execute_delivers (o := o) rfl rfl rfl rfl hrun ?_ ?_ ?_⟩
  · intro file hfile stem hfilestem
    obtain rfl : file = ⟨"a/Lib.xml"⟩ := by simpa [hfiles] using hfile
    rw [← Option.some.inj (hstem.symm.trans hfilestem)]
    exact habsent
  · intro f hf g hg _ page hpage
    obtain rfl : f = ⟨"a/Lib.xml"⟩ := by simpa [hfiles] using hf
    obtain rfl : g = ⟨"a/Lib.xml"⟩ := by simpa [hfiles] using hg
    exact hpage
  · rintro p hp ⟨q, hstep, -⟩
    obtain rfl | rfl : p = ⟨"out"⟩ ∨ p = ⟨"a/Lib.xml"⟩ := by simpa [hfiles] using hp
    · exact Disk.not_stepsUp_of_noUp hup.1 hstep
    · exact Disk.not_stepsUp_of_noUp hup.2 hstep

/-- **Two files of one stem do not both arrive**: the second one is left alone behind the first, or
overwrites it, and the run goes well. -/
theorem lost_of_sameStem :
    let w : World := .ofDisk twoLibs []
    let kept := execute (m := StateM World) ["-o", "out", "a/Lib.xml", "b/Lib.xml"] w
    let forced := execute (m := StateM World) ["-f", "-o", "out", "a/Lib.xml", "b/Lib.xml"] w
    w.disk.isPresent w.base ⟨"out/Lib.md"⟩ = false ∧
      w.page ⟨"a/Lib.xml"⟩ = .ok "A\n\n" ∧ w.page ⟨"b/Lib.xml"⟩ = .ok "B\n\n" ∧
      (kept.1 = 0 ∧ kept.2.disk.read w.base ⟨"out/Lib.md"⟩ = .ok "A\n\n") ∧
      (forced.1 = 0 ∧ forced.2.disk.read w.base ⟨"out/Lib.md"⟩ = .ok "B\n\n") := by
  decide +kernel

-- A path that steps out of what the run makes: `a.md` is made on the way to the directory, and then
-- taken for the page.
example :
    let d := (Disk.empty.write [] ⟨"a.xml"⟩ "<summary>A</summary>").toOption.getD .empty
    let w : World := .ofDisk d []
    let run := execute (m := StateM World) ["-o", "a.md/..", "a.xml"] w
    w.disk.isPresent w.base ⟨"a.md/../a.md"⟩ = false ∧ w.page ⟨"a.xml"⟩ = .ok "A\n\n" ∧
      run.1 = 0 ∧ run.2.disk.isDirectory w.base ⟨"a.md"⟩ = true := by
  decide +kernel

end DocMarkdown
