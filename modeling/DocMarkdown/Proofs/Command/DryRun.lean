import DocMarkdown.Proofs.Command.Frame

/-!
# Proofs/Command/DryRun — what a dry run tells of the run itself

A dry run reads the same options but for its own (`Command.ofArguments_dryRun`), and tells of every
file that the run may write (`wouldWrite_of_run`).  The run itself writes those of them that it does
not find, or all with force (`wrote_of_run`): what it looks at is the disk behind the making of its
directory, however many pages it has written since.  So the dry run names too many files where one
of them is there (`wouldWrite_of_skipped`), and otherwise tells the truth (`wrote_iff_wouldWrite`).
-/

namespace DocMarkdown

/-! ## The option

The reader of arguments sets options and does not look at any.  So each of its parts reads the same
from options with `dryRun` set, up to that option in what it gives back. -/

namespace Options

/-- The same conversion as a dry run. -/
def toDry (o : Options) : Options := { o with dryRun := true }

end Options

/-- What a command line asks for, as a dry run if it is a conversion. -/
def Command.toDry : Command → Command
  | convert o => convert o.toDry
  | command => command

/-- An effect on a dry run. -/
def Effect.toDry : Effect → Effect
  | next o => next o.toDry
  | stop command => stop command.toDry
  | value => value

/-- What one argument leads to in a dry run. -/
def Progress.toDry : Progress → Progress
  | next o => next o.toDry
  | stop command => stop command.toDry
  | wait o spelling => wait o.toDry spelling

namespace Options

theorem effect_toDry (o : Options) (name : OptionName) :
    o.toDry.effect name = (o.effect name).toDry := by
  cases name <;> rfl

theorem readLong_toDry (o : Options) (cs : List Char) :
    o.toDry.readLong cs = (o.readLong cs).map Progress.toDry := by
  unfold readLong
  dsimp only
  split
  · rfl
  · next option _ =>
    rw [effect_toDry]
    cases o.effect option <;> cases cs.dropWhile (· ≠ '=') <;> rfl

theorem readShort_toDry (o : Options) (before : Option Char) (cs : List Char) :
    o.toDry.readShort before cs = (o.readShort before cs).map Progress.toDry := by
  induction cs generalizing o before with
  | nil => rfl
  | cons c cs ih =>
    unfold readShort
    split
    · rfl
    · split
      · rfl
      · next option _ =>
        rw [effect_toDry]
        cases o.effect option with
        | stop command => rfl
        | next o' => exact ih _ _
        | value =>
          dsimp only [Effect.toDry]
          split <;> first | rfl | contradiction

theorem readArgument_toDry (o : Options) (argument : String) :
    o.toDry.readArgument argument = (o.readArgument argument).map Progress.toDry := by
  unfold readArgument
  split
  · exact readLong_toDry _ _
  · exact readShort_toDry _ _ _
  · rfl

theorem foldl_addInput_toDry (o : Options) (inputs : List String) :
    inputs.foldl addInput o.toDry = (inputs.foldl addInput o).toDry := by
  induction inputs generalizing o with
  | nil => rfl
  | cons input inputs ih => exact ih (o.addInput input)

theorem readAll_toDry (o : Options) (arguments : List String) :
    o.toDry.readAll arguments = (o.readAll arguments).map Command.toDry := by
  fun_induction readAll o arguments with
  | case1 o => rfl
  | case2 o rest =>
    rw [readAll, if_pos rfl, foldl_addInput_toDry]
    rfl
  | case3 o argument rest hdashes e hread =>
    rw [readAll, if_neg hdashes, readArgument_toDry, hread]
    rfl
  | case4 o argument rest hdashes o' hread ih =>
    rw [readAll, if_neg hdashes, readArgument_toDry, hread]
    exact ih
  | case5 o argument rest hdashes command hread =>
    rw [readAll, if_neg hdashes, readArgument_toDry, hread]
    rfl
  | case6 o argument hdashes o' spelling hread =>
    rw [readAll, if_neg hdashes, readArgument_toDry, hread]
    rfl
  | case7 o argument hdashes o' spelling hread value rest ih =>
    rw [readAll, if_neg hdashes, readArgument_toDry, hread]
    exact ih

end Options

/-- **A dry run is asked for in front of any arguments.** -/
theorem Command.ofArguments_dryRun {arguments : List String} {o : Options}
    (h : ofArguments arguments = .ok (.convert o)) :
    ofArguments ("--dry-run" :: arguments) = .ok (.convert o.toDry) := by
  unfold ofArguments at h ⊢
  split at h
  · exact absurd h nofun
  · have hfirst : Options.default.readAll ("--dry-run" :: arguments) =
        Options.default.toDry.readAll arguments := rfl
    rw [if_neg (List.cons_ne_nil _ _), hfirst, Options.readAll_toDry, h]
    rfl

/-! ## What is told -/

namespace World

/-- The notices tell that a file was written. -/
def Wrote (w : World) (p : Path) : Prop := ∃ joined?, .wrote p joined? ∈ w.notices

/-- The notices tell that a file would be written. -/
def WouldWrite (w : World) (p : Path) : Prop := ∃ joined?, .wouldWrite p joined? ∈ w.notices

variable {w : World} {p target : Path}

@[simp] theorem wrote_say_skipped : (w.say (.skipped target)).Wrote p ↔ w.Wrote p := by
  simp [Wrote, say]

@[simp] theorem wrote_say_wrote {joined? : Option Nat} :
    (w.say (.wrote target joined?)).Wrote p ↔ w.Wrote p ∨ p = target := by
  simp [Wrote, say, exists_or]

@[simp] theorem wouldWrite_say_wouldWrite {joined? : Option Nat} :
    (w.say (.wouldWrite target joined?)).WouldWrite p ↔ w.WouldWrite p ∨ p = target := by
  simp [WouldWrite, say, exists_or]

end World

/-! ## Pages into a directory

Every page is looked for on the disk that the loop has come to.  `Underway` puts that in terms of
the disk at the start: a name is present if it was so then, or if it is the page of a file that is
done.  So a page that is found for the second reason is one that has been told of already. -/

/-- **The name of the page** of one of these files. -/
def IsPage (files : List Path) (name : String) : Prop :=
  ∃ file ∈ files, ∃ stem, file.stem? = some stem ∧ name = stem ++ ".md"

theorem isPage_append {files : List Path} {file : Path} {stem : String}
    (hstem : file.stem? = some stem) {name : String} :
    IsPage (files ++ [file]) name ↔ IsPage files name ∨ name = stem ++ ".md" := by
  simp [IsPage, or_and_right, exists_or, hstem]

/-- **How far a run over files has come**: it has made the pages of the files that are done, and has
told of those that were absent at the start or that there was force for. -/
structure Underway (o : Options) (start : World) (directory : Path) (done : List Path) (w : World) :
    Prop where
  base : w.base = start.base
  present : ∀ name, Path.IsName name →
    (w.disk.isPresent w.base (directory.join name) ↔
      start.disk.isPresent start.base (directory.join name) ∨ IsPage done name)
  wrote : ∀ p, w.Wrote p ↔ start.Wrote p ∨ ∃ name, IsPage done name ∧ p = directory.join name ∧
    (o.force = true ∨ start.disk.isPresent start.base p = false)

namespace Underway

variable {o : Options} {start w w' : World} {directory file : Path} {done : List Path}

theorem refl (o : Options) (start : World) (directory : Path) :
    Underway o start directory [] start where
  base := rfl
  present name _ := by simp [IsPage]
  wrote p := by simp [IsPage]

/-- **One file that is left alone.**  What is there was there at the start, or is the page of a file
of the same stem. -/
theorem skip (h : Underway o start directory done w) {stem : String}
    (hstem : file.stem? = some stem) (hforce : o.force = false)
    (hpresent : w.disk.isPresent w.base (directory.join (stem ++ ".md"))) :
    Underway o start directory (done ++ [file])
      (w.say (.skipped (directory.join (stem ++ ".md")))) := by
  have hthere := (h.present _ (Path.isName_page hstem)).mp hpresent
  refine ⟨h.base, fun name hother => ?_, fun p => ?_⟩
  · rw [World.disk_say, World.base_say, h.present name hother, isPage_append hstem]
    refine ⟨.imp_right .inl, ?_⟩
    rintro (hstart | hpage | rfl)
    · exact .inl hstart
    · exact .inr hpage
    · exact hthere
  · rw [World.wrote_say_skipped, h.wrote]
    refine or_congr_right (exists_congr fun name => and_congr_left ?_)
    rintro ⟨rfl, hallowed⟩
    rw [isPage_append hstem]
    refine ⟨.inl, ?_⟩
    rintro (hpage | rfl)
    · exact hpage
    · have habsent := hallowed.resolve_left (by simp [hforce])
      exact hthere.resolve_left (by simp [habsent])

/-- **One file that is written.**  What is absent was absent at the start. -/
theorem write (h : Underway o start directory done w) {stem page : String} {d : Disk}
    (hstem : file.stem? = some stem)
    (hfound : o.force = true ∨ w.disk.isPresent w.base (directory.join (stem ++ ".md")) = false)
    (hwrite : w.disk.write w.base (directory.join (stem ++ ".md")) page = .ok d) :
    Underway o start directory (done ++ [file])
      (World.say { w with disk := d } (.wrote (directory.join (stem ++ ".md")) none)) := by
  have hname := Path.isName_page hstem
  have habsent : o.force = true ∨
      start.disk.isPresent start.base (directory.join (stem ++ ".md")) = false := by
    refine hfound.imp_right fun hmissing => Bool.eq_false_iff.mpr fun hstart => ?_
    rw [(h.present _ hname).mpr (.inl hstart)] at hmissing
    contradiction
  refine ⟨h.base, fun name hother => ?_, fun p => ?_⟩
  · rw [World.disk_say, World.base_say, Disk.isPresent_join_of_write hname hother hwrite,
      h.present name hother, isPage_append hstem, or_assoc]
  · have hkept : World.Wrote { w with disk := d } p ↔ w.Wrote p := .rfl
    rw [World.wrote_say_wrote, hkept, h.wrote, or_assoc]
    refine or_congr_right ⟨?_, ?_⟩
    · rintro (⟨name, hpage, hp⟩ | rfl)
      · exact ⟨name, (isPage_append hstem).mpr (.inl hpage), hp⟩
      · exact ⟨_, (isPage_append hstem).mpr (.inr rfl), rfl, habsent⟩
    · rintro ⟨name, hpage, rfl, hallowed⟩
      obtain hpage | rfl := (isPage_append hstem).mp hpage
      · exact .inl ⟨name, hpage, rfl, hallowed⟩
      · exact .inr rfl

/-- **One file more.** -/
theorem step (hdry : o.dryRun = false) (hquiet : o.quiet = false)
    (h : Underway o start directory done w)
    (hrun : outcome (runInto o directory file) w = (.ok (), w')) :
    Underway o start directory (done ++ [file]) w' := by
  obtain ⟨stem, hstem, ⟨hpresent, hforce, rfl⟩ | ⟨hfound, page, d, -, hwrite, rfl⟩⟩ :=
    of_outcome_runInto_eq_ok hdry hrun <;> rw [World.report_of_not_quiet hquiet]
  · exact h.skip hstem hforce hpresent
  · exact h.write hstem hfound hwrite

end Underway

section Pages

variable {o : Options} {directory : Path} {files : List Path} {start w : World}

theorem underway_of_forM (hdry : o.dryRun = false) (hquiet : o.quiet = false)
    (h : outcome (files.forM (runInto o directory)) start = (.ok (), w)) :
    Underway o start directory files w :=
  forM_induction (Underway o start directory) (.refl o start directory)
    (fun _ _ _ _ _ _ hmid hrun => hmid.step hdry hquiet hrun) h

/-- **A dry run over files tells of every page.** -/
theorem wouldWrite_of_forM (hdry : o.dryRun = true)
    (h : outcome (files.forM (runInto o directory)) start = (.ok (), w)) (p : Path) :
    w.WouldWrite p ↔ start.WouldWrite p ∨ ∃ name, IsPage files name ∧ p = directory.join name := by
  refine forM_induction (fun done w =>
    w.WouldWrite p ↔ start.WouldWrite p ∨ ∃ name, IsPage done name ∧ p = directory.join name)
    (by simp [IsPage]) ?_ h
  intro front file behind mid mid' _ hmid hrun
  rw [outcome_runInto] at hrun
  split at hrun
  · exact absurd (congrArg Prod.fst hrun) nofun
  · next stem hstem =>
    rw [outcome_deliver, if_pos hdry] at hrun
    obtain rfl := (Prod.mk.inj hrun).2
    rw [World.wouldWrite_say_wouldWrite, hmid, or_assoc]
    simp only [isPage_append hstem, or_and_right, exists_or, exists_eq_left]

end Pages

/-! ## A conversion -/

section Conversion

variable {o : Options} {target p : Path} {files : List Path} {w w' : World}

theorem writes_of_concat (h : o.concat = true) : o.Writes files target p ↔ p = target := by
  simp [Options.Writes, h]

theorem writes_of_not_concat (h : o.concat = false) :
    o.Writes files target p ↔ ∃ name, IsPage files name ∧ p = target.join name := by
  simp only [Options.Writes, h, Bool.false_eq_true, false_and, false_or, true_and]
  constructor
  · rintro ⟨file, hfile, stem, hstem, rfl⟩
    exact ⟨_, ⟨file, hfile, stem, hstem, rfl⟩, rfl⟩
  · rintro ⟨_, ⟨file, hfile, stem, hstem, rfl⟩, rfl⟩
    exact ⟨file, hfile, stem, hstem, rfl⟩

/-- **The world in which a conversion looks for what is there already**: pages that go to a
directory are looked for behind the making of it. -/
def Options.looksIn (o : Options) (target : Path) (w : World) : World :=
  if o.concat then w else (outcome (prepareDirectory target) w).2

theorem wrote_makeDirectories (ps : List Path) :
    (makeDirectories (m := StateM World) ps w).2.Wrote p ↔ w.Wrote p := by
  rw [makeDirectories_snd]
  rfl

/-- **A dry run tells of every file that the conversion may write.** -/
theorem wouldWrite_of_run (hdry : o.dryRun = true) (hout : o.output = .path target)
    (h : outcome o.run w = (.ok (), w')) :
    w'.WouldWrite p ↔ w.WouldWrite p ∨ o.Writes (w.files o.inputs) target p := by
  obtain ⟨hconcat, hway⟩ | ⟨hconcat, hway⟩ := of_outcome_run_of_path_eq_ok hout h
  · obtain ⟨pages, hpages⟩ := exists_pages_of_outcome_runJoined_eq_ok hway
    rw [outcome_runJoined_of_path hout hpages, outcome_deliver, if_pos hdry] at hway
    obtain rfl := (Prod.mk.inj hway).2
    rw [World.wouldWrite_say_wouldWrite, writes_of_concat hconcat]
  · rw [outcome_runEach_of_dryRun hdry] at hway
    rw [wouldWrite_of_forM hdry hway, writes_of_not_concat hconcat]

theorem wrote_of_runJoined (hdry : o.dryRun = false) (hquiet : o.quiet = false)
    (hout : o.output = .path target) (h : outcome (runJoined o files) w = (.ok (), w')) :
    w'.Wrote p ↔ w.Wrote p ∨
      p = target ∧ (o.force = true ∨ w.disk.isPresent w.base p = false) := by
  obtain ⟨pages, hpages⟩ := exists_pages_of_outcome_runJoined_eq_ok h
  rw [outcome_runJoined_of_path hout hpages] at h
  obtain ⟨hpresent, hforce, rfl⟩ | ⟨hfound, text, mid, d, hpage, -, rfl⟩ :=
    of_outcome_deliver_eq_ok hdry h <;> rw [World.report_of_not_quiet hquiet]
  · rw [World.wrote_say_skipped, iff_self_or]
    rintro ⟨rfl, hallowed⟩
    simp [hforce, hpresent] at hallowed
  · have hmade : World.Wrote { mid with disk := d } p ↔ w.Wrote p := by
      rw [outcome_bind_eq_ok] at hpage
      obtain ⟨⟨⟩, _, hmake, hpure⟩ := hpage
      obtain rfl := (Prod.mk.inj hpure).2
      obtain rfl := (Prod.mk.inj hmake).2
      exact wrote_makeDirectories _
    rw [World.wrote_say_wrote, hmade]
    refine or_congr_right ⟨?_, And.left⟩
    rintro rfl
    exact ⟨rfl, hfound⟩

/-- **A run tells of every file that it may write**, unless it is there and there is no force. -/
theorem wrote_of_run (hdry : o.dryRun = false) (hquiet : o.quiet = false)
    (hout : o.output = .path target) (h : outcome o.run w = (.ok (), w')) :
    w'.Wrote p ↔ w.Wrote p ∨ o.Writes (w.files o.inputs) target p ∧ (o.force = true ∨
      (o.looksIn target w).disk.isPresent (o.looksIn target w).base p = false) := by
  obtain ⟨hconcat, hway⟩ | ⟨hconcat, hway⟩ := of_outcome_run_of_path_eq_ok hout h
  · rw [Options.looksIn, hconcat, if_pos rfl, writes_of_concat hconcat]
    exact wrote_of_runJoined hdry hquiet hout hway
  · rw [outcome_runEach hdry, outcome_bind_eq_ok] at hway
    obtain ⟨⟨⟩, start, hmake, hloop⟩ := hway
    have hstart : start.Wrote p ↔ w.Wrote p := by
      obtain rfl := (Prod.mk.inj hmake).2
      exact wrote_makeDirectories _
    rw [Options.looksIn, hconcat, if_neg Bool.false_ne_true, hmake, writes_of_not_concat hconcat,
      (underway_of_forM hdry hquiet hloop).wrote, hstart]
    simp only [← and_assoc, exists_and_right]

end Conversion

/-! ## Two runs of a command -/

/-- **What a dry run tells of the run itself.**  Where both go well from one world, the dry run
names every file that the run may write, and the run has written these but for those that it finds
there and leaves without force.  So the two name the same files just where there is force, or none
of the files is there. -/
theorem wrote_iff_wouldWrite {arguments dry : List String} {o : Options} {target : Path}
    {w done told : World} (hcommand : Command.ofArguments arguments = .ok (.convert o))
    (htold : Command.ofArguments dry = .ok (.convert o.toDry)) (hout : o.output = .path target)
    (hdry : o.dryRun = false) (hquiet : o.quiet = false) (hsilent : w.notices = [])
    (hrun : execute (m := StateM World) arguments w = (0, done))
    (hrunDry : execute (m := StateM World) dry w = (0, told)) :
    let there := fun p => (o.looksIn target w).disk.isPresent (o.looksIn target w).base p
    (∀ p, told.WouldWrite p ↔ o.Writes (w.files o.inputs) target p) ∧
      (∀ p, done.Wrote p ↔ told.WouldWrite p ∧ (o.force = true ∨ there p = false)) ∧
      ((∀ p, told.WouldWrite p ↔ done.Wrote p) ↔
        o.force = true ∨ ∀ p, told.WouldWrite p → there p = false) := by
  intro there
  have hdone := outcome_of_execute_eq_zero hrun
  rw [runArguments_of_convert hcommand] at hdone
  have htold' := outcome_of_execute_eq_zero hrunDry
  rw [runArguments_of_convert htold] at htold'
  have hnone : ∀ p, ¬w.Wrote p ∧ ¬w.WouldWrite p := by
    simp [World.Wrote, World.WouldWrite, hsilent]
  have hwrites : ∀ p, told.WouldWrite p ↔ o.Writes (w.files o.inputs) target p := fun p =>
    (wouldWrite_of_run (o := o.toDry) rfl hout htold').trans (or_iff_right (hnone p).2)
  have hwrote : ∀ p, done.Wrote p ↔
      told.WouldWrite p ∧ (o.force = true ∨ there p = false) := fun p => by
    rw [wrote_of_run hdry hquiet hout hdone, or_iff_right (hnone p).1, hwrites]
  refine ⟨hwrites, hwrote, ?_⟩
  simp only [hwrote, iff_self_and]
  cases o.force <;> simp

/-- Into a directory that is not there yet, a dry run tells the truth. -/
theorem wrote_iff_wouldWrite_newDirectory :
    let w : World := .ofDisk oldPage []
    let run := execute (m := StateM World) ["-o", "out", "a.xml"] w
    let dry := execute (m := StateM World) ["--dry-run", "-o", "out", "a.xml"] w
    run.1 = 0 ∧ dry.1 = 0 ∧ dry.2.WouldWrite ⟨"out/a.md"⟩ ∧
      ∀ p, dry.2.WouldWrite p ↔ run.2.Wrote p := by
  intro w run dry
  let o : Options := ⟨[⟨"a.xml"⟩], .path ⟨"out"⟩, false, false, false, false⟩
  have hcommand : Command.ofArguments ["-o", "out", "a.xml"] = .ok (.convert o) := rfl
  have hrun : run.1 = 0 := by decide +kernel
  have hdry : dry.1 = 0 := by decide +kernel
  have htold : dry.2.notices = [.wouldWrite ⟨"out/a.md"⟩ none] := by decide +kernel
  have habsent : (o.looksIn ⟨"out"⟩ w).disk.isPresent (o.looksIn ⟨"out"⟩ w).base ⟨"out/a.md"⟩
      = false := by decide +kernel
  have hwould : ∀ p, dry.2.WouldWrite p ↔ p = ⟨"out/a.md"⟩ := by
    simp [World.WouldWrite, htold]
  refine ⟨hrun, hdry, (hwould _).mpr rfl, ?_⟩
  refine (wrote_iff_wouldWrite hcommand (Command.ofArguments_dryRun hcommand) rfl rfl rfl rfl
    (Prod.ext hrun rfl) (Prod.ext hdry rfl)).2.2.mpr (.inr fun p hp => ?_)
  rw [(hwould p).mp hp]
  exact habsent

/-- **A dry run tells of a file that is left alone** in the run itself. -/
theorem wouldWrite_of_skipped :
    let w : World := .ofDisk oldPage []
    let run := execute (m := StateM World) ["-o", ".", "a.xml"] w
    let dry := execute (m := StateM World) ["--dry-run", "-o", ".", "a.xml"] w
    run.1 = 0 ∧ run.2.notices = [.skipped ⟨"./a.md"⟩] ∧
      dry.1 = 0 ∧ dry.2.notices = [.wouldWrite ⟨"./a.md"⟩ none] := by
  decide +kernel

end DocMarkdown
