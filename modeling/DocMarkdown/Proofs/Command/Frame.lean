import DocMarkdown.Proofs.Command.Outcome
import DocMarkdown.Proofs.Files.Change

/-!
# Proofs/Command/Frame — what a command may change

A command changes the disk at few places only: the directory of its pages and those above it, and
the pages; or, where pages are joined, their one file and the directories above it.  A dry run and a
run to the standard output change nothing, and a run without force leaves every file as it was
(`execute_frame`) but in one corner: a joined output is looked for before the directories above it
are made, so a step up in its path may lead to a file that was not found (`overtaken_of_stepUp`).
-/

namespace DocMarkdown

/-! ## What may be changed

Both sets of paths are told by the options and the files that were gathered, before anything is
done.  Where the paths lead is another matter: they are followed on the disk behind the run. -/

/-- **The directories that a conversion may make**: those above its output, and the output itself
where pages go to a directory. -/
def Options.Makes (o : Options) (target p : Path) : Prop :=
  p ∈ target.ancestors ∨ o.concat = false ∧ p = target

/-- **The files that a conversion may write**: its output where pages are joined, and otherwise the
page of each file, by its stem. -/
def Options.Writes (o : Options) (files : List Path) (target p : Path) : Prop :=
  o.concat = true ∧ p = target ∨ o.concat = false ∧
    ∃ file ∈ files, ∃ stem, file.stem? = some stem ∧ p = target.join (stem ++ ".md")

/-- **A joined output overtakes a file**: its path, which has a step up, led nowhere before the run
and leads to the file behind it. -/
def Options.Overtakes (o : Options) (w w' : World) (q : Place) : Prop :=
  o.concat = true ∧ ∃ target, o.output = .path target ∧ ".." ∈ target.segments ∧
    w.disk.isPresent w.base target = false ∧ w'.disk.resolve w.base target = .ok q

/-! ## Moves of the world

One relation serves for every part of a command.  It is reflexive and transitive, so it passes from
steps to sequences and loops; force is a parameter of it, since that decides whether files stay as
they are. -/

/-- **The world moves on**: some directories are made and some files written, and all that was there
is as it was unless there is force. -/
structure World.Moves (force : Bool) (made written : Path → Prop) (w w' : World) : Prop where
  base : w'.base = w.base
  changes : Disk.Changes w.base made written w.disk w'.disk
  grows : force = false → w.disk ≤ w'.disk

/-- **A file keeps its page** where the disk only grows. -/
theorem World.page_mono {w w' : World} (hbase : w'.base = w.base) (hgrows : w.disk ≤ w'.disk)
    {file : Path} {text : String} (hpage : w.page file = .ok text) : w'.page file = .ok text := by
  obtain ⟨source, hread, hconvert⟩ := World.page_eq_ok.mp hpage
  refine World.page_eq_ok.mpr ⟨source, ?_, hconvert⟩
  rw [hbase]
  exact Disk.read_mono hgrows hread

namespace World.Moves

variable {force : Bool} {made written : Path → Prop} {u v w w' : World}

theorem of_disk_eq (hbase : w'.base = w.base) (hdisk : w'.disk = w.disk) :
    w.Moves force made written w' where
  base := hbase
  changes := hdisk ▸ .refl _
  grows _ := hdisk ▸ Disk.le_refl _

theorem refl (w : World) : w.Moves force made written w := of_disk_eq rfl rfl

theorem trans (huv : u.Moves force made written v) (hvw : v.Moves force made written w) :
    u.Moves force made written w where
  base := hvw.base.trans huv.base
  changes := huv.changes.trans (huv.base ▸ hvw.changes)
  grows h := Disk.le_trans (huv.grows h) (hvw.grows h)

/-- A file keeps its page where nothing is overwritten. -/
theorem page (h : w.Moves false made written w') {file : Path} {text : String}
    (hpage : w.page file = .ok text) : w'.page file = .ok text :=
  page_mono h.base (h.grows rfl) hpage

end World.Moves

/-! ## Steps out of what is new

A path that led nowhere can lead to an old entry behind a run: it goes down into a directory that
the run has made, and up again out of it.  Without such a step a path leads to what is old only if
it led there before. -/

/-- **A path steps out of a new directory**: one of its steps up starts from a directory at whose
place nothing was before. -/
def World.StepsOut (w w' : World) (p : Path) : Prop :=
  ∃ q, w'.disk.StepsUp (p.start w'.base) p.segments q ∧ w.disk.find? q = none

theorem World.isSome_of_not_stepsOut {w w' : World} {p : Path} (hout : ¬ w.StepsOut w' p) :
    ∀ q, w'.disk.StepsUp (p.start w'.base) p.segments q → (w.disk.find? q).isSome := by
  intro q hq
  by_contra hnone
  exact hout ⟨q, hq, by simpa using hnone⟩

/-- A step out of a new directory is one for good. -/
theorem World.StepsOut.mono {w mid w' : World} {p : Path} (h : w.StepsOut mid p)
    (hbase : w'.base = mid.base) (hstands : mid.disk.Stands w'.disk) : w.StepsOut w' p := by
  obtain ⟨q, ⟨front, behind, hsegments, hfront, hdir⟩, hnew⟩ := h
  refine ⟨q, ⟨front, behind, hsegments, ?_, hstands.directories q hdir⟩, hnew⟩
  rw [hbase]
  exact hstands.follow hfront

/-- **New directories give no page to a file**, unless its path steps out of one of them. -/
theorem World.Moves.page_back {made : Path → Prop} {w w' : World}
    (h : w.Moves false made (fun _ => False) w') {file : Path} (hout : ¬ w.StepsOut w' file)
    {text : String} (hpage : w'.page file = .ok text) : w.page file = .ok text := by
  obtain ⟨source, hread, hconvert⟩ := World.page_eq_ok.1 hpage
  obtain ⟨q, content, hq, hfile, htext⟩ := Disk.read_eq_ok.1 hread
  have hold : w.disk.find? q = some (.file content) := by
    by_contra hne
    have hdir := (h.changes.directory_of_ne fun heq => hne (heq ▸ hfile)).1
    exact absurd (hfile.symm.trans hdir) nofun
  have hup := World.isSome_of_not_stepsOut hout
  rw [h.base] at hq hup
  have hback := Disk.resolve_back_of_stepsUp (h.grows rfl) hup hq (by rw [hold]; rfl)
  exact World.page_eq_ok.2
    ⟨source, Disk.read_eq_ok.2 ⟨q, content, hback, hold, htext⟩, hconvert⟩

/-! ## Actions within limits -/

section Within

variable {α β : Type} {force : Bool} {made written : Path → Prop}

/-- **An action moves the world within limits**, whether it succeeds or fails. -/
def Within (force : Bool) (made written : Path → Prop) (x : ExceptT RunError (StateM World) α) :
    Prop :=
  ∀ w : World, w.Moves force made written (outcome x w).2

theorem Within.bind {x : ExceptT RunError (StateM World) α}
    {f : α → ExceptT RunError (StateM World) β} (hx : Within force made written x)
    (hf : ∀ a, Within force made written (f a)) : Within force made written (x >>= f) := by
  intro w
  have hxw := hx w
  rw [outcome_bind]
  generalize outcome x w = result at hxw ⊢
  rcases result with ⟨e | a, mid⟩
  · exact hxw
  · exact hxw.trans (hf a mid)

theorem Within.forM {f : α → ExceptT RunError (StateM World) Unit} {xs : List α}
    (hf : ∀ a ∈ xs, Within force made written (f a)) : Within force made written (xs.forM f) := by
  induction xs with
  | nil => exact fun w => .refl w
  | cons x xs ih =>
    obtain ⟨hx, hxs⟩ := List.forall_mem_cons.1 hf
    exact hx.bind fun _ => ih hxs

end Within

/-! ## Directories -/

section Directories

variable {force : Bool} {made written : Path → Prop}

/-- **Directories are made where their paths lead**, and nothing else is changed. -/
theorem moves_makeDirectories {ps : List Path} (hps : ∀ p ∈ ps, made p) (w : World) :
    w.Moves force made written (makeDirectories (m := StateM World) ps w).2 := by
  rw [makeDirectories_snd]
  refine makeDirectories_induction (P := fun d => w.Moves force made written { w with disk := d })
    (fun p hp d e hd hmake => ?_) (.refl w)
  exact hd.trans ⟨rfl, .of_makeDirectory hmake (hps p hp), fun _ => Disk.le_of_makeDirectory hmake⟩

theorem within_makeDirectories {ps : List Path} (hps : ∀ p ∈ ps, made p)
    (error : FileError → RunError) :
    Within force made written (attempt error (makeDirectories ps)) :=
  fun w => moves_makeDirectories hps w

/-- Making the directory of the pages adds that directory and those above it. -/
theorem moves_prepareDirectory {target : Path} {w start : World}
    (hmake : outcome (prepareDirectory target) w = (.ok (), start)) :
    w.Moves false (· ∈ target.directories) (fun _ => False) start := by
  rw [outcome_prepareDirectory] at hmake
  rw [← (Prod.mk.inj hmake).2]
  exact moves_makeDirectories (fun _ h => h) w

end Directories

/-! ## One page

A delivery that fails may have changed the disk all the same: directories that were made for a
joined output stay when the output cannot be written.  Hence `stopped`, between doing nothing and
writing. -/

/-- **What a delivery does to the disk**: nothing; or what the page takes and no more; or the write
behind it, where nothing was found or there is force. -/
inductive Delivery (o : Options) (target : Path) (page : ExceptT RunError (StateM World) String)
    (w : World) : Disk → Prop
  | left : Delivery o target page w w.disk
  | stopped (hdry : o.dryRun = false) : Delivery o target page w (outcome page w).2.disk
  | written {text : String} {mid : World} {d : Disk} (hdry : o.dryRun = false)
      (hfound : o.force = false → w.disk.isPresent w.base target = false)
      (hpage : outcome page w = (.ok text, mid))
      (hwrite : mid.disk.write mid.base target text = .ok d) : Delivery o target page w d

theorem delivery_deliver (o : Options) (target : Path) (joined? : Option Nat)
    (page : ExceptT RunError (StateM World) String) (w : World) :
    Delivery o target page w (outcome (deliver o target joined? page) w).2.disk := by
  rw [outcome_deliver]
  cases hdry : o.dryRun with
  | true => exact .left
  | false =>
    rw [if_neg Bool.false_ne_true]
    split
    · rw [World.disk_report]
      exact .left
    · next hfound =>
      have hstopped : Delivery o target page w (outcome page w).2.disk := .stopped hdry
      rcases hpage : outcome page w with ⟨e | text, mid⟩
      · rwa [hpage] at hstopped
      · dsimp only
        split
        · rwa [hpage] at hstopped
        · next d hwrite =>
          rw [World.disk_report]
          exact .written hdry (fun hforce => by simpa [hforce] using hfound) hpage hwrite

/-- A dry run delivers nothing. -/
theorem Options.spares_disk {o : Options} (hdry : o.dryRun = true) : o.Spares World.disk where
  say _ _ _ := rfl
  report h := absurd (hdry.symm.trans h) nofun
  disk h := absurd (hdry.symm.trans h) nofun

/-! ## Pages into a directory -/

/-- **A page goes to its own file.** -/
theorem within_deliver {o : Options} {made written : Path → Prop} {target : Path}
    (h : written target) (joined? : Option Nat) (file : Path) :
    Within o.force made written (deliver o target joined? (convertFile file)) := by
  intro w
  have hbase := congrArg Prod.fst
    (keeps_deliver o.spares_stage target joined?
      (fun _ => keeps_of_outcome_eq (outcome_convertFile file)) w)
  have hdelivery := delivery_deliver o target joined? (convertFile file) w
  generalize (outcome (deliver o target joined? (convertFile file)) w).2 = w' at hbase hdelivery ⊢
  obtain ⟨d, base, output, notices⟩ := w'
  obtain rfl : base = w.base := hbase
  cases hdelivery with
  | left => exact .of_disk_eq rfl rfl
  | stopped => exact .of_disk_eq rfl (by rw [outcome_convertFile])
  | written _ hfound hpage hwrite =>
    rw [outcome_convertFile] at hpage
    obtain ⟨-, rfl⟩ := Prod.mk.inj hpage
    exact ⟨rfl, .of_write hwrite h, fun hforce => Disk.le_of_write hwrite (hfound hforce)⟩

theorem within_runInto {o : Options} {made written : Path → Prop} {directory file : Path}
    (h : ∀ stem, file.stem? = some stem → written (directory.join (stem ++ ".md"))) :
    Within o.force made written (runInto o directory file) := by
  intro w
  rw [outcome_runInto]
  split
  · exact .refl w
  · next stem hstem => exact within_deliver (h stem hstem) _ _ w

/-- The pages themselves add files only. -/
theorem moves_forM_runInto {o : Options} {target : Path} {files : List Path} {start w' : World}
    (hloop : outcome (files.forM (runInto o target)) start = (.ok (), w')) :
    start.Moves o.force (fun _ => False)
      (fun p => ∃ file ∈ files, ∃ stem, file.stem? = some stem ∧ p = target.join (stem ++ ".md"))
      w' := by
  have hwithin : Within o.force (fun _ => False)
      (fun p => ∃ file ∈ files, ∃ stem, file.stem? = some stem ∧ p = target.join (stem ++ ".md"))
      (files.forM (runInto o target)) :=
    .forM fun file hfile => within_runInto fun stem hstem => ⟨file, hfile, stem, hstem, rfl⟩
  have hmoves := hwithin start
  rwa [hloop] at hmoves

/-- **Pages into a directory** change the directory, those above it, and their own files. -/
theorem within_runEach {o : Options} (hconcat : o.concat = false) (directory : Path)
    (files : List Path) :
    Within o.force (o.Makes directory) (o.Writes files directory) (runEach o directory files) := by
  intro w
  cases hdry : o.dryRun with
  | true =>
    have hbase := congrArg Prod.fst (keeps_runEach o.spares_stage directory files w)
    exact .of_disk_eq hbase (keeps_runEach (Options.spares_disk hdry) directory files w)
  | false =>
    rw [outcome_runEach hdry]
    refine Within.bind (within_makeDirectories (fun p hp => ?_) _) (fun _ => .forM ?_) w
    · split at hp
      · exact absurd hp List.not_mem_nil
      · rcases List.mem_cons.1 hp with rfl | hp
        · exact .inr ⟨hconcat, rfl⟩
        · exact .inl hp
    · intro file hfile
      exact within_runInto fun stem hstem => .inr ⟨hconcat, file, hfile, stem, hstem, rfl⟩

/-! ## Pages joined

The output is looked for on the disk of the start and written on one with more directories.  The two
disks are kept apart here, because this is the one place where a file can be overwritten without
force. -/

/-- **Joined pages**: the directories above their file are made at most, and then the file is
written if it was not found or there is force. -/
theorem exists_moves_runJoined {o : Options} {target : Path} (hout : o.output = .path target)
    (files : List Path) (w : World) :
    ∃ mid, w.Moves false (· ∈ target.ancestors) (fun _ => False) mid ∧
      ((outcome (runJoined o files) w).2.disk = mid.disk ∨
        (o.force = false → w.disk.isPresent w.base target = false) ∧
          ∃ text, mid.disk.write w.base target text
            = .ok (outcome (runJoined o files) w).2.disk) := by
  rcases hpages : files.mapM w.page with e | pages
  · refine ⟨w, .refl w, .inl ?_⟩
    unfold runJoined
    rw [outcome_bind, outcome_mapM_convertFile, hpages]
  · rw [outcome_runJoined_of_path hout hpages]
    set page : ExceptT RunError (StateM World) String := do
      attempt .notCreated (makeDirectories target.ancestors)
      return pageBreak.intercalate pages
    have hpage : Within false (· ∈ target.ancestors) (fun _ => False) page :=
      (within_makeDirectories (fun _ h => h) _).bind fun _ w => .refl w
    have hdelivery := delivery_deliver o target (some files.length) page w
    generalize (outcome (deliver o target (some files.length) page) w).2.disk = d at hdelivery ⊢
    cases hdelivery with
    | left => exact ⟨w, .refl w, .inl rfl⟩
    | stopped => exact ⟨_, hpage w, .inl rfl⟩
    | written _ hfound hmid hwrite =>
      have hmoves := hpage w
      rw [hmid] at hmoves
      rw [hmoves.base] at hwrite
      exact ⟨_, hmoves, .inr ⟨hfound, _, hwrite⟩⟩

/-! ## A conversion -/

/-- **A dry run and a run to the standard output change nothing.** -/
theorem keeps_disk_run {o : Options} (h : o.dryRun = true ∨ o.output = .standard) :
    Keeps World.disk o.run :=
  keeps_run (fun _ _ _ => rfl) (fun _ _ _ _ => rfl) fun hout =>
    Options.spares_disk (h.resolve_right hout)

/-- **A conversion changes its output, and the directories above it.** -/
theorem changes_run {o : Options} {target : Path} (hout : o.output = .path target) (w : World) :
    Disk.Changes w.base (o.Makes target) (o.Writes (w.files o.inputs) target) w.disk
      (outcome o.run w).2.disk := by
  obtain hrun | ⟨hconcat, hrun⟩ | ⟨hconcat, hrun⟩ := outcome_run_of_path hout w <;> rw [hrun]
  · exact .refl _
  · obtain ⟨mid, hmoves, hdisk⟩ := exists_moves_runJoined hout (w.files o.inputs) w
    have hchanges : Disk.Changes w.base (o.Makes target) (o.Writes (w.files o.inputs) target)
        w.disk mid.disk := hmoves.changes.mono (fun _ h => .inl h) (fun _ h => h.elim)
    obtain hdisk | ⟨-, text, hwrite⟩ := hdisk
    · rwa [hdisk]
    · exact hchanges.trans (.of_write hwrite (.inl ⟨hconcat, rfl⟩))
  · exact (within_runEach hconcat target _ w).changes

/-- **Without force a file stays as it is**, unless a joined output overtakes it. -/
theorem find?_run {o : Options} (hforce : o.force = false) {w : World} {q : Place}
    {content : ByteArray} (hq : w.disk.find? q = some (.file content)) :
    (outcome o.run w).2.disk.find? q = some (.file content) ∨
      o.Overtakes w (outcome o.run w).2 q := by
  cases hout : o.output with
  | standard =>
    have hdisk := keeps_disk_run (.inr hout) w
    exact .inl (by rw [hdisk, hq])
  | path target =>
    obtain hrun | ⟨hconcat, hrun⟩ | ⟨hconcat, hrun⟩ := outcome_run_of_path hout w <;> rw [hrun]
    · exact .inl hq
    · obtain ⟨mid, hmoves, hdisk⟩ := exists_moves_runJoined hout (w.files o.inputs) w
      have hmid := hmoves.grows rfl q _ hq
      obtain hdisk | ⟨habsent, text, hwrite⟩ := hdisk
      · exact .inl (by rw [hdisk, hmid])
      · obtain ⟨r, -, -, hresolve, hback, hother⟩ := Disk.resolve_of_write hwrite
        by_cases hqr : q = r
        · subst hqr
          refine .inr ⟨hconcat, target, hout, ?_, habsent hforce, hresolve⟩
          -- without a step up the path would have led to the file before the run
          by_contra hup
          have hled : w.disk.resolve w.base target = .ok q :=
            Disk.resolve_back_of_noUp (hmoves.grows rfl) hup (hback (by rw [hmid]; rfl))
              (by rw [hq]; rfl)
          have hpresent : w.disk.isPresent w.base target = true :=
            Disk.isPresent_iff.2 ⟨q, _, hled, hq⟩
          rw [habsent hforce] at hpresent
          contradiction
        · exact .inl (by rw [hother q hqr, hmid])
    · exact .inl ((within_runEach hconcat target _ w).grows hforce q _ hq)

/-! ## A command -/

/-- A command that converts nothing changes nothing. -/
theorem disk_runArguments {arguments : List String}
    (h : ∀ o, Command.ofArguments arguments ≠ .ok (.convert o)) (w : World) :
    (outcome (runArguments arguments) w).2.disk = w.disk := by
  unfold runArguments
  rcases hcommand : Command.ofArguments arguments with e | _ | _ | o
  · rfl
  · rfl
  · rfl
  · exact absurd hcommand (h o)

theorem disk_of_execute {arguments : List String} {w w' : World} {code : Nat}
    (h : execute (m := StateM World) arguments w = (code, w')) :
    w'.disk = (outcome (runArguments arguments) w).2.disk := by
  rw [execute_eq] at h
  rcases hout : outcome (runArguments arguments) w with ⟨e | ⟨⟩, left⟩ <;> rw [hout] at h <;>
    rw [← (Prod.mk.inj h).2]
  rfl

/-- **What a command may change**, whether it succeeds or fails.  Without force every file stays as
it is, unless a joined output overtakes it.  A dry run changes nothing, and neither does a run to
the standard output.  In any other run a place that is not as it was is a new directory, at or above
the directory of the pages or above the joined output, or the file of a page.  A command that
converts nothing changes nothing. -/
theorem execute_frame {arguments : List String} {w w' : World} {code : Nat}
    (hrun : execute (m := StateM World) arguments w = (code, w')) :
    (∀ o, Command.ofArguments arguments = .ok (.convert o) →
      (o.force = false → ∀ q content, w.disk.find? q = some (.file content) →
        w'.disk.find? q = some (.file content) ∨ o.Overtakes w w' q) ∧
      (o.dryRun = true ∨ o.output = .standard → w'.disk = w.disk) ∧
      ∀ target, o.output = .path target →
        Disk.Changes w.base (o.Makes target) (o.Writes (w.files o.inputs) target)
          w.disk w'.disk) ∧
    ((∀ o, Command.ofArguments arguments ≠ .ok (.convert o)) → w'.disk = w.disk) := by
  have hdisk := disk_of_execute hrun
  refine ⟨fun o ho => ?_, fun h => hdisk.trans (disk_runArguments h w)⟩
  rw [runArguments_of_convert ho] at hdisk
  refine ⟨fun hforce q content hq => ?_, fun h => ?_, fun target hout => ?_⟩
  · rw [Options.Overtakes, hdisk]
    exact find?_run hforce hq
  · exact hdisk.trans (keeps_disk_run h w)
  · rw [hdisk]
    exact changes_run hout w

/-- A disk with a file to convert, and a page from before. -/
def oldPage : Disk :=
  let made : Except FileError Disk := do
    let d ← Disk.empty.write [] ⟨"a.xml"⟩ "<summary>A</summary>"
    d.write [] ⟨"a.md"⟩ "old"
  made.toOption.getD .empty

/-- A run that fails at its second file: what was there is as it was, and only the directory and the
page of the first file are new. -/
theorem execute_frame_missingFile :
    let w : World := .ofDisk oldPage []
    let o : Options := ⟨[⟨"a.xml"⟩, ⟨"b.xml"⟩], .path ⟨"out"⟩, false, false, false, false⟩
    ∃ w', execute (m := StateM World) ["-o", "out", "a.xml", "b.xml"] w = (1, w') ∧
      (∀ q content, w.disk.find? q = some (.file content) →
        w'.disk.find? q = some (.file content)) ∧
      Disk.Changes w.base (o.Makes ⟨"out"⟩) (o.Writes (w.files o.inputs) ⟨"out"⟩)
        w.disk w'.disk := by
  intro w o
  have hcode : (execute (m := StateM World) ["-o", "out", "a.xml", "b.xml"] w).1 = 1 := by
    decide +kernel
  rcases hrun : execute (m := StateM World) ["-o", "out", "a.xml", "b.xml"] w with ⟨code, w'⟩
  rw [hrun] at hcode
  obtain rfl : code = 1 := hcode
  obtain ⟨hkept, -, hchanges⟩ := (execute_frame hrun).1 o rfl
  refine ⟨w', rfl, fun q content hq => ?_, hchanges ⟨"out"⟩ rfl⟩
  exact (hkept rfl q content hq).resolve_right fun h => absurd h.1 nofun

/-- **A joined output can overtake a file**: `new/../a.md` is not found, and leads to `a.md` when
the run has made `new`, so the page that was there is lost without force. -/
theorem overtaken_of_stepUp :
    let w : World := .ofDisk oldPage []
    let run := execute (m := StateM World) ["--concat", "-o", "new/../a.md", "a.xml"] w
    Command.ofArguments ["--concat", "-o", "new/../a.md", "a.xml"] =
        .ok (.convert ⟨[⟨"a.xml"⟩], .path ⟨"new/../a.md"⟩, true, false, false, false⟩) ∧
      run.1 = 0 ∧ w.disk.read w.base ⟨"a.md"⟩ = .ok "old" ∧
      run.2.disk.read w.base ⟨"a.md"⟩ = .ok "A\n\n" := by
  decide +kernel

end DocMarkdown
