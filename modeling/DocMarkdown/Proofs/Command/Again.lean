import DocMarkdown.Proofs.Command.Arrival
import DocMarkdown.Proofs.Command.Frame
import DocMarkdown.Proofs.Command.Regathering

/-!
# Proofs/Command/Again — a command that is run again

A run that goes well without force has left every page that it was asked for in its place, so the
same command finds them all there and changes nothing more (`execute_again`).  For that it has to
gather no other files than the first time, and some of them.  What the run has added lies aside of
every walk, where no new entry has the name of a documentation file (`growsAside_of_runEach`,
`growsAside_of_runJoined`); and an input that does not step out of a new directory stands for no
other files than before.
-/

namespace DocMarkdown

/-! ## What a run adds

New entries are directories on the way to the output, which may have any name, and the output
itself: a page, whose name ends with `.md`, or a joined output, which again may have any name.
Hence a condition on the names of new directories in the one case, and of all that is new in the
other. -/

/-- A page does not have the name of a documentation file. -/
theorem not_isDocumentationName_page (stem : String) : ¬ IsDocumentationName (stem ++ ".md") := by
  rintro ⟨other, -, heq⟩
  have hlast := congrArg (fun s => s.toList.getLast?) heq
  simp at hlast

/-- Directories are made under names that entries can have. -/
theorem namesNew_makeDirectories (ps : List Path) (w : World) :
    Disk.NamesNew w.disk (makeDirectories (m := StateM World) ps w).2.disk :=
  makeDirectories_induction (fun _ _ _ _ hd hmake => hd.trans (.of_makeDirectory hmake)) (.refl _)

section Into

variable {o : Options} {target : Path} {files : List Path} {w start w' : World}

/-- What is new behind the making of the directory is a directory with a name. -/
theorem new_of_prepareDirectory (hmake : outcome (prepareDirectory target) w = (.ok (), start))
    {place : Place} {name : String} (hnone : w.disk.find? (place ++ [name]) = none)
    (hsome : (start.disk.find? (place ++ [name])).isSome) :
    start.disk.find? (place ++ [name]) = some .directory ∧ Path.IsName name := by
  have hne : start.disk.find? (place ++ [name]) ≠ w.disk.find? (place ++ [name]) := by
    rw [hnone]
    exact Option.isSome_iff_ne_none.1 hsome
  refine ⟨((moves_prepareDirectory hmake).changes.directory_of_ne hne).1, ?_⟩
  rw [outcome_prepareDirectory] at hmake
  rw [← (Prod.mk.inj hmake).2] at hsome
  exact namesNew_makeDirectories _ w _ _ hnone hsome

/-- What is new behind the pages has the name of a page. -/
theorem new_of_forM_runInto
    (hloop : outcome (files.forM (runInto o target)) start = (.ok (), w'))
    {place : Place} {name : String} (hnone : start.disk.find? (place ++ [name]) = none)
    (hsome : (w'.disk.find? (place ++ [name])).isSome) :
    Path.IsName name ∧ ∃ stem, name = stem ++ ".md" := by
  have hne : w'.disk.find? (place ++ [name]) ≠ start.disk.find? (place ++ [name]) := by
    rw [hnone]
    exact Option.isSome_iff_ne_none.1 hsome
  obtain ⟨-, p, ⟨file, -, stem, hstem, rfl⟩, hresolve⟩ :=
    (moves_forM_runInto hloop).changes.file_of_ne hne
  have hname := Path.isName_page hstem
  obtain ⟨_, -, heq, -⟩ := (Disk.resolve_join_eq_ok hname).1 hresolve
  obtain ⟨-, hlast⟩ := List.append_inj' heq rfl
  rw [(List.cons.inj hlast).1]
  exact ⟨hname, stem, rfl⟩

/-- **A run into a directory adds what no walk takes**, if none of its new directories has the name
of a documentation file. -/
theorem growsAside_of_runEach (hforce : o.force = false)
    (hmake : outcome (prepareDirectory target) w = (.ok (), start))
    (hloop : outcome (files.forM (runInto o target)) start = (.ok (), w'))
    (hnew : ∀ place name, w.disk.find? (place ++ [name]) = none →
      w'.disk.find? (place ++ [name]) = some .directory → ¬ IsDocumentationName name) :
    w.GrowsAside w' := by
  have hmade := moves_prepareDirectory hmake
  have hpages := moves_forM_runInto hloop
  rw [hforce] at hpages
  have hentry : ∀ place name, w.disk.find? (place ++ [name]) = none →
      (w'.disk.find? (place ++ [name])).isSome →
      Path.IsName name ∧ ¬ IsDocumentationName name := by
    intro place name hnone hsome
    rcases hx : start.disk.find? (place ++ [name]) with _ | x
    · obtain ⟨hname, stem, rfl⟩ := new_of_forM_runInto hloop hx hsome
      exact ⟨hname, not_isDocumentationName_page stem⟩
    · obtain ⟨hdirectory, hname⟩ := new_of_prepareDirectory hmake hnone (by rw [hx]; rfl)
      exact ⟨hname, hnew _ _ hnone (hpages.grows rfl _ _ hdirectory)⟩
  exact ⟨hpages.base.trans hmade.base, Disk.le_trans (hmade.grows rfl) (hpages.grows rfl),
    fun place name hnone hsome => (hentry place name hnone hsome).1,
    fun place name hnone hsome => (hentry place name hnone hsome).2⟩

/-- **Behind a run into a directory** the page of every file is there. -/
theorem isPresent_of_forM (hdry : o.dryRun = false) (hforce : o.force = false)
    (hloop : outcome (files.forM (runInto o target)) start = (.ok (), w')) :
    ∀ file ∈ files, ∃ stem, file.stem? = some stem ∧
      w'.disk.isPresent w'.base (target.join (stem ++ ".md")) := by
  refine forM_induction (fun done mid => ∀ file ∈ done, ∃ stem, file.stem? = some stem ∧
    mid.disk.isPresent mid.base (target.join (stem ++ ".md"))) (by simp) ?_ hloop
  rintro front file behind mid mid' - hdone hrun other hother
  have hmoves : mid.Moves false (fun _ => False) (fun _ => True) mid' := by
    have hwithin : Within o.force (fun _ => False) (fun _ => True) (runInto o target file) :=
      within_runInto fun _ _ => trivial
    have hmid := hwithin mid
    rwa [hrun, hforce] at hmid
  rcases List.mem_append.1 hother with hfront | hlast
  · obtain ⟨stem, hstem, hpresent⟩ := hdone other hfront
    rw [hmoves.base]
    exact ⟨stem, hstem, Disk.isPresent_mono (hmoves.grows rfl) hpresent⟩
  · obtain rfl := List.mem_singleton.1 hlast
    obtain ⟨stem, hstem, ⟨hpresent, -⟩ | ⟨-, page, d, -, hwrite, rfl⟩⟩ :=
      of_outcome_runInto_eq_ok hdry hrun
    · rw [hmoves.base]
      exact ⟨stem, hstem, Disk.isPresent_mono (hmoves.grows rfl) hpresent⟩
    · refine ⟨stem, hstem, ?_⟩
      rw [hmoves.base, World.disk_report]
      exact Disk.isPresent_of_read (Disk.read_of_write hwrite)

/-- **Files whose pages are there are left alone**, all of them. -/
theorem exists_outcome_forM_of_isPresent (hdry : o.dryRun = false) (hforce : o.force = false)
    (hpresent : ∀ file ∈ files, ∃ stem, file.stem? = some stem ∧
      w.disk.isPresent w.base (target.join (stem ++ ".md"))) :
    ∃ again, outcome (files.forM (runInto o target)) w = (.ok (), again) ∧
      again.disk = w.disk ∧ again.stage = w.stage := by
  induction files generalizing w with
  | nil => exact ⟨w, rfl, rfl, rfl⟩
  | cons file files ih =>
    obtain ⟨⟨stem, hstem, hthere⟩, hpresent⟩ := List.forall_mem_cons.1 hpresent
    have hskip : outcome (runInto o target file) w =
        (.ok (), w.report o (.skipped (target.join (stem ++ ".md")))) := by
      rw [outcome_runInto, hstem]
      dsimp only
      rw [outcome_deliver, hdry, if_neg Bool.false_ne_true, hthere, hforce]
      rfl
    have hstage := w.stage_report o (.skipped (target.join (stem ++ ".md")))
    obtain ⟨again, hloop, hdisk, hagain⟩ := ih fun other hother => by
      rw [World.disk_report, show World.base _ = w.base from congrArg Prod.fst hstage]
      exact hpresent other hother
    refine ⟨again, ?_, hdisk.trans (World.disk_report w o _), hagain.trans hstage⟩
    rw [outcome_forM_cons, outcome_bind_eq_ok]
    exact ⟨(), _, hskip, hloop⟩

end Into

/-- **A joined output is written where nothing was**, unless its path steps out of a new directory:
a file that it leads to behind the making of directories was there, and so it was led to before. -/
theorem le_of_write_of_not_stepsOut {target : Path} {made : Path → Prop} {w mid : World} {d : Disk}
    {text : String} (hmade : w.Moves false made (fun _ => False) mid)
    (habsent : w.disk.isPresent w.base target = false)
    (hwrite : mid.disk.write mid.base target text = .ok d)
    (hout : ¬ w.StepsOut { mid with disk := d } target) : mid.disk ≤ d := by
  obtain ⟨place, hnodir, hfile, -, hback, hother⟩ := Disk.resolve_of_write hwrite
  have hstands : mid.disk.Stands d := .of_eq_of_ne hnodir (by rw [hfile]; rfl) hother
  refine Disk.le_of_eq_of_ne ?_ hother
  by_contra hsome
  obtain ⟨x, hx⟩ := Option.ne_none_iff_exists'.1 hsome
  have hold : w.disk.find? place = some x := by
    by_contra hne
    exact hnodir (hmade.changes.directory_of_ne fun heq => hne (heq ▸ hx)).1
  have hstep : ¬ w.StepsOut mid target := fun h => hout (h.mono rfl hstands)
  have hup := World.isSome_of_not_stepsOut hstep
  have hled := hback (by rw [hx]; rfl)
  rw [hmade.base] at hup hled
  have hbefore := Disk.resolve_back_of_stepsUp (hmade.grows rfl) hup hled (by rw [hold]; rfl)
  rw [Disk.isPresent_iff.2 ⟨place, x, hbefore, hold⟩] at habsent
  contradiction

/-- **A run that joins pages adds what no walk takes**, if nothing new has the name of a
documentation file. -/
theorem growsAside_of_runJoined {o : Options} {target : Path} {files : List Path} {w w' : World}
    (hdry : o.dryRun = false) (hforce : o.force = false) (hpath : o.output = .path target)
    (hrun : outcome (runJoined o files) w = (.ok (), w')) (hout : ¬ w.StepsOut w' target)
    (hnew : ∀ place name x, w.disk.find? (place ++ [name]) = none →
      w'.disk.find? (place ++ [name]) = some x → ¬ IsDocumentationName name) :
    w.GrowsAside w' ∧ w'.disk.isPresent w'.base target := by
  obtain ⟨pages, hpages⟩ := exists_pages_of_outcome_runJoined_eq_ok hrun
  rw [outcome_runJoined_of_path hpath hpages] at hrun
  obtain ⟨hpresent, -, hskipped⟩ | ⟨hfound, text, last, d, hpage, hwrite, hwritten⟩ :=
    of_outcome_deliver_eq_ok hdry hrun
  · have hbase : w'.base = w.base := hskipped ▸ congrArg Prod.fst (w.stage_report o _)
    have hdisk : w'.disk = w.disk := hskipped ▸ w.disk_report o _
    refine ⟨.of_disk_eq hbase hdisk, ?_⟩
    rw [hdisk, hbase]
    exact hpresent
  · rw [outcome_bind_eq_ok] at hpage
    obtain ⟨⟨⟩, mid, hmake, hpure⟩ := hpage
    obtain rfl := (Prod.mk.inj hpure).2
    have hmid := (Prod.mk.inj hmake).2
    have hmade : w.Moves false (· ∈ target.ancestors) (fun _ => False) mid :=
      hmid ▸ moves_makeDirectories (fun _ h => h) w
    have hnames : Disk.NamesNew w.disk mid.disk := hmid ▸ namesNew_makeDirectories _ w
    have hbase : w'.base = mid.base :=
      hwritten ▸ congrArg Prod.fst (World.stage_report { mid with disk := d } o _)
    have hdisk : w'.disk = d := hwritten ▸ World.disk_report { mid with disk := d } o _
    have hgrows : mid.disk ≤ d := by
      refine le_of_write_of_not_stepsOut hmade (hfound.resolve_left (by simp [hforce])) hwrite ?_
      exact fun h => hout (h.mono hbase (hdisk.symm ▸ .of_le (Disk.le_refl d)))
    refine ⟨⟨hbase.trans hmade.base, ?_, ?_, fun place name hnone hsome => ?_⟩, ?_⟩
    · rw [hdisk]
      exact Disk.le_trans (hmade.grows rfl) hgrows
    · rw [hdisk]
      exact hnames.trans (.of_store hwrite)
    · obtain ⟨x, hx⟩ := Option.isSome_iff_exists.1 hsome
      exact hnew place name x hnone hx
    · rw [hdisk, hbase]
      exact Disk.isPresent_of_read (Disk.read_of_write hwrite)

/-! ## What is gathered again

The second run needs at least one file to convert.  The first file of the first run is one: it was
gathered from a directory that is still there, or it was an input itself and is no directory now. -/

section Gathered

variable {o : Options} {target p : Path} {inputs : List Path} {w start w' : World}
  {written : Path → Prop}

/-- **A file that goes well does not become a directory**: it has been read, or nothing but pages is
new. -/
theorem not_isDirectory_of_runInto (hdry : o.dryRun = false) (hgrows : w.GrowsAside w')
    (hmake : outcome (prepareDirectory target) w = (.ok (), start))
    (hpages : start.Moves false (fun _ => False) written w') {mid : World}
    (hrun : outcome (runInto o target p) start = (.ok (), mid))
    (hout : ∀ q ∈ [target, p], ¬ w.StepsOut w' q) (hbefore : ¬ w.disk.isDirectory w.base p) :
    ¬ w'.disk.isDirectory w'.base p := by
  obtain ⟨stem, hstem, ⟨hpresent, -⟩ | ⟨-, page, _, hpage, -⟩⟩ := of_outcome_runInto_eq_ok hdry hrun
  · -- its page was there, so the directory was, and no other has been made
    have htarget : ¬ w.StepsOut start target := fun h =>
      hout target (by simp) (h.mono hpages.base (.of_le (hpages.grows rfl)))
    have hthere := hasDirectory_of_isPresent_join hmake htarget (Path.isName_page hstem) hpresent
    rw [prepareDirectory_of_hasDirectory hthere] at hmake
    obtain rfl := (Prod.mk.inj hmake).2
    intro hbehind
    obtain ⟨place, hplace, hdirectory⟩ := Disk.isDirectory_iff.1 hbehind
    refine hbefore (hgrows.isDirectory_back (hout p (by simp)) hplace hdirectory fun hnone => ?_)
    obtain ⟨⟨_, hcontent⟩, -⟩ := hpages.changes.file_of_ne (q := place) (by
      rw [hdirectory, hnone]
      exact nofun)
    exact absurd (hdirectory.symm.trans hcontent) nofun
  · -- it has been read, and so it is a file still
    obtain ⟨text, hread, -⟩ :=
      World.page_eq_ok.1 (World.page_mono hpages.base (hpages.grows rfl) hpage)
    exact Disk.not_isDirectory_of_read hread

/-- **The first file is gathered again.** -/
theorem files_ne_nil_of_runEach (hdry : o.dryRun = false) (hforce : o.force = false)
    (hgrows : w.GrowsAside w') (hfiles : w.files inputs ≠ [])
    (hmake : outcome (prepareDirectory target) w = (.ok (), start))
    (hloop : outcome ((w.files inputs).forM (runInto o target)) start = (.ok (), w'))
    (hout : ∀ p ∈ target :: inputs, ¬ w.StepsOut w' p) : w'.files inputs ≠ [] := by
  have hpages := moves_forM_runInto hloop
  rw [hforce] at hpages
  obtain ⟨file, rest, hcons⟩ := List.exists_cons_of_ne_nil hfiles
  obtain ⟨p, hp, hfile⟩ : ∃ p ∈ inputs, file ∈ w.filesOf p :=
    List.mem_flatMap.1 (show file ∈ w.files inputs by rw [hcons]; exact List.mem_cons_self)
  refine List.ne_nil_of_mem (List.mem_flatMap.2 ⟨p, hp, hgrows.mem_filesOf ?_ hfile⟩)
  refine or_iff_not_imp_left.2 fun hbefore => ?_
  rw [World.filesOf_of_not_isDirectory hbefore, List.mem_singleton] at hfile
  subst hfile
  rw [hcons, outcome_forM_cons, outcome_bind_eq_ok] at hloop
  obtain ⟨⟨⟩, _, hrun, -⟩ := hloop
  refine not_isDirectory_of_runInto hdry hgrows hmake hpages hrun (fun q hq => hout q ?_) hbefore
  rcases List.mem_cons.1 hq with rfl | hq
  · exact List.mem_cons_self
  · exact List.mem_cons_of_mem _ (List.mem_singleton.1 hq ▸ hp)

end Gathered

/-! ## The same way again

Into a directory, the second run finds every page and leaves it alone without reading a file.
Joined pages are converted before their output is looked for, so there each file has to have a page
again. -/

/-- All files together have pages when each of them has one. -/
theorem exists_mapM_page_iff {w : World} {files : List Path} :
    (∃ pages, files.mapM w.page = .ok pages) ↔ ∀ file ∈ files, ∃ page, w.page file = .ok page := by
  induction files with
  | nil => simp [pure, Except.pure]
  | cons file files ih =>
    rw [List.forall_mem_cons, ← ih, List.mapM_cons]
    rcases w.page file with e | page
    · simp [bind, Except.bind]
    · rcases files.mapM w.page with e | pages <;> simp [bind, Except.bind, pure, Except.pure]

section Ways

variable {o : Options} {target : Path} {w w' : World} (hdry : o.dryRun = false)
  (hforce : o.force = false) (hpath : o.output = .path target)
  (hout : ∀ p ∈ target :: o.inputs, ¬ w.StepsOut w' p)

include hdry hforce hpath hout

/-- **Into a directory**: all pages are there and are left alone. -/
theorem exists_outcome_runEach_again (hconcat : o.concat = false) (hfiles : w.files o.inputs ≠ [])
    (hnew : ∀ place name, w.disk.find? (place ++ [name]) = none →
      w'.disk.find? (place ++ [name]) = some .directory → ¬ IsDocumentationName name)
    (hrun : outcome (runEach o target (w.files o.inputs)) w = (.ok (), w')) :
    ∃ again, outcome o.run w' = (.ok (), again) ∧ again.disk = w'.disk ∧
      again.stage = w'.stage := by
  rw [outcome_runEach hdry, outcome_bind_eq_ok] at hrun
  obtain ⟨⟨⟩, start, hmake, hloop⟩ := hrun
  have hgrows := growsAside_of_runEach hforce hmake hloop hnew
  have hpages := moves_forM_runInto hloop
  rw [hforce] at hpages
  have hsubset := hgrows.files_subset fun p hp => hout p (List.mem_cons_of_mem _ hp)
  have hsome := files_ne_nil_of_runEach hdry hforce hgrows hfiles hmake hloop hout
  have hpresent := isPresent_of_forM hdry hforce hloop
  have hthere : w'.HasDirectory target := by
    obtain ⟨file, hfile⟩ := List.exists_mem_of_ne_nil _ hfiles
    obtain ⟨place, hplace⟩ := exists_at_of_forM hdry hfile hloop
    have hat := hplace.mono (hpages.grows rfl)
    rw [← hpages.base] at hat
    exact World.hasDirectory_of_at hat
  obtain ⟨again, hagain, hdisk, hstage⟩ := exists_outcome_forM_of_isPresent hdry hforce
    fun file hfile => hpresent file (hsubset hfile)
  refine ⟨again, ?_, hdisk, hstage⟩
  have hway : outcome o.run w' = outcome (runEach o target (w'.files o.inputs)) w' := by
    rw [outcome_run, if_neg hsome, hconcat, hpath]
    rfl
  rw [hway, outcome_runEach hdry, outcome_bind_eq_ok]
  exact ⟨(), w', prepareDirectory_of_hasDirectory hthere, hagain⟩

/-- **Joined pages**: all files are converted again, and the output is there and is left alone. -/
theorem exists_outcome_runJoined_again (hconcat : o.concat = true)
    (hfiles : w.files o.inputs ≠ [])
    (hnew : ∀ place name x, w.disk.find? (place ++ [name]) = none →
      w'.disk.find? (place ++ [name]) = some x → ¬ IsDocumentationName name)
    (hrun : outcome (runJoined o (w.files o.inputs)) w = (.ok (), w')) :
    ∃ again, outcome o.run w' = (.ok (), again) ∧ again.disk = w'.disk ∧
      again.stage = w'.stage := by
  have hpages := exists_mapM_page_iff.1 (exists_pages_of_outcome_runJoined_eq_ok hrun)
  obtain ⟨hgrows, hpresent⟩ := growsAside_of_runJoined hdry hforce hpath hrun
    (hout target List.mem_cons_self) hnew
  have hsubset := hgrows.files_subset fun p hp => hout p (List.mem_cons_of_mem _ hp)
  have hsome : w'.files o.inputs ≠ [] := by
    obtain ⟨file, hfile⟩ := List.exists_mem_of_ne_nil _ hfiles
    obtain ⟨p, hp, hfp⟩ := List.mem_flatMap.1 hfile
    refine List.ne_nil_of_mem (List.mem_flatMap.2 ⟨p, hp, hgrows.mem_filesOf ?_ hfp⟩)
    -- an input that was no directory has been read
    refine or_iff_not_imp_left.2 fun hbefore => ?_
    rw [World.filesOf_of_not_isDirectory hbefore, List.mem_singleton] at hfp
    subst hfp
    obtain ⟨page, hpage⟩ := hpages file hfile
    obtain ⟨text, hread, -⟩ := World.page_eq_ok.1 (World.page_mono hgrows.base hgrows.grows hpage)
    exact Disk.not_isDirectory_of_read hread
  obtain ⟨pages, hagain⟩ : ∃ pages, (w'.files o.inputs).mapM w'.page = .ok pages :=
    exists_mapM_page_iff.2 fun file hfile => by
      obtain ⟨page, hpage⟩ := hpages file (hsubset hfile)
      exact ⟨page, World.page_mono hgrows.base hgrows.grows hpage⟩
  refine ⟨w'.report o (.skipped target), ?_, World.disk_report _ _ _, World.stage_report _ _ _⟩
  rw [outcome_run_of_concat hsome hconcat, outcome_runJoined_of_path hpath hagain,
    outcome_deliver, hdry, if_neg Bool.false_ne_true, hpresent, hforce]
  rfl

end Ways

/-! ## The same command again -/

/-- **A command that goes well can be run again**, and then changes nothing and prints nothing: a
conversion into a file or a directory, neither dry nor by force, which has added nothing with the
name of a documentation file and none of whose paths steps out of a directory that it has made. -/
theorem execute_again {arguments : List String} {o : Options} {target : Path} {w w' : World}
    (hcommand : Command.ofArguments arguments = .ok (.convert o)) (hpath : o.output = .path target)
    (hdry : o.dryRun = false) (hforce : o.force = false)
    (hrun : execute (m := StateM World) arguments w = (0, w'))
    (hnew : ∀ place name x, w.disk.find? (place ++ [name]) = none →
      w'.disk.find? (place ++ [name]) = some x → x = .directory ∨ o.concat = true →
      ¬ IsDocumentationName name)
    (hout : ∀ p ∈ target :: o.inputs, ¬ w.StepsOut w' p) :
    ∃ again, execute (m := StateM World) arguments w' = (0, again) ∧ again.disk = w'.disk ∧
      again.output = w'.output := by
  have hconvert := outcome_of_execute_eq_zero hrun
  rw [runArguments_of_convert hcommand] at hconvert
  have hfiles : w.files o.inputs ≠ [] := by
    intro hnil
    rw [outcome_run, if_pos hnil] at hconvert
    exact absurd (congrArg Prod.fst hconvert) nofun
  obtain ⟨again, hagain, hdisk, hstage⟩ : ∃ again, outcome o.run w' = (.ok (), again) ∧
      again.disk = w'.disk ∧ again.stage = w'.stage := by
    obtain ⟨hconcat, hway⟩ | ⟨hconcat, hway⟩ := of_outcome_run_of_path_eq_ok hpath hconvert
    · exact exists_outcome_runJoined_again hdry hforce hpath hout hconcat hfiles
        (fun place name x hnone hx => hnew place name x hnone hx (.inr hconcat)) hway
    · exact exists_outcome_runEach_again hdry hforce hpath hout hconcat hfiles
        (fun place name hnone hx => hnew place name _ hnone hx (.inl rfl)) hway
  exact ⟨again, execute_of_outcome_run_ok hcommand hagain, hdisk, congrArg Prod.snd hstage⟩

/-- The pages of a directory go to a new directory within it, and the second time all of them are
there. -/
theorem execute_again_shelf :
    let arguments := ["-o", "in/out", "in"]
    let w : World := .ofDisk shelf []
    let first := execute (m := StateM World) arguments w
    first.1 = 0 ∧ w.disk.isPresent [] ⟨"in/out"⟩ = false ∧
      first.2.disk.isPresent [] ⟨"in/out/Lib.md"⟩ = true ∧
      ∃ again, execute (m := StateM World) arguments first.2 = (0, again) ∧
        again.disk = first.2.disk ∧ again.output = first.2.output := by
  intro arguments w first
  let o : Options := ⟨[⟨"in"⟩], .path ⟨"in/out"⟩, false, false, false, false⟩
  have hcommand : Command.ofArguments arguments = .ok (.convert o) := rfl
  have hcode : first.1 = 0 := by decide +kernel
  have habsent : w.disk.isPresent [] ⟨"in/out"⟩ = false := by decide +kernel
  have hpresent : first.2.disk.isPresent [] ⟨"in/out/Lib.md"⟩ = true := by decide +kernel
  have hplaces : ∀ q ∈ first.2.disk.places, w.disk.find? q = none →
      ∀ name ∈ q.getLast?, ¬ IsDocumentationName name := by decide +kernel
  have hup : ∀ p ∈ (⟨"in/out"⟩ : Path) :: o.inputs, ".." ∉ p.segments := by decide
  have hrun : execute (m := StateM World) arguments w = first := rfl
  clear_value first
  obtain ⟨code, w'⟩ := first
  obtain rfl : code = 0 := hcode
  refine ⟨rfl, habsent, hpresent, execute_again hcommand rfl rfl rfl hrun ?_ ?_⟩
  · intro place name x hnone hx _
    exact hplaces _ (Disk.mem_places.2 (by rw [hx]; rfl)) hnone name (by simp)
  · rintro p hp ⟨q, hq, -⟩
    exact Disk.not_stepsUp_of_noUp (hup p hp) hq

/-- A disk with a page from before in a directory. -/
def leftPage : Disk :=
  let made : Except FileError Disk := do
    let d ← Disk.empty.makeDirectory [] ⟨"out"⟩
    d.write [] ⟨"out/new.md"⟩ "old"
  made.toOption.getD .empty

/-- **A command that went well can fail when it is run again**: it steps out of the directory that
it makes, and an input that was missing, and was skipped for its page, is that directory now. -/
theorem execute_again_fails :
    let arguments := ["-o", "new/../out", "new"]
    let w : World := .ofDisk leftPage []
    let first := execute (m := StateM World) arguments w
    let again := execute (m := StateM World) arguments first.2
    Command.ofArguments arguments =
        .ok (.convert ⟨[⟨"new"⟩], .path ⟨"new/../out"⟩, false, false, false, false⟩) ∧
      first.1 = 0 ∧ (∀ place name, w.disk.find? (place ++ [name]) = none →
        (first.2.disk.find? (place ++ [name])).isSome → ¬ IsDocumentationName name) ∧
      again.1 = 1 ∧ again.2.notices.getLast? = some (.failed .noInput) := by
  intro arguments w first again
  have hcommand : Command.ofArguments arguments = .ok (.convert
      ⟨[⟨"new"⟩], .path ⟨"new/../out"⟩, false, false, false, false⟩) := by decide +kernel
  have hcode : first.1 = 0 := by decide +kernel
  have hplaces : ∀ q ∈ first.2.disk.places, w.disk.find? q = none →
      ∀ name ∈ q.getLast?, ¬ IsDocumentationName name := by decide +kernel
  have hagain : again.1 = 1 ∧ again.2.notices.getLast? = some (.failed .noInput) := by
    decide +kernel
  refine ⟨hcommand, hcode, fun place name hnone hsome => ?_, hagain⟩
  exact hplaces _ (Disk.mem_places.2 hsome) hnone name (by simp)

end DocMarkdown
