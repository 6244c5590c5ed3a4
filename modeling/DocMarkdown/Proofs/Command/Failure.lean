import DocMarkdown.Proofs.Command.Outcome

/-!
# Proofs/Command/Failure — what a failing command leaves behind

A command that fails prints nothing, and it stops between two steps, never within one: an input
without a page costs a joined output nothing on the disk, and a file that fails on its way into a
directory leaves the world that the files in front of it led to (`execute_failed`).
-/

namespace DocMarkdown

/-! ## One file -/

/-- **A file that fails leaves the world alone.** -/
theorem runInto_failed {o : Options} {directory file : Path} {w w' : World} {e : RunError}
    (h : outcome (runInto o directory file) w = (.error e, w')) : w' = w := by
  rw [outcome_runInto] at h
  split at h
  · exact (Prod.mk.inj h).2.symm
  · have hpage := of_outcome_deliver_eq_error h
    simp only [outcome_convertFile, Prod.mk.injEq] at hpage
    obtain ⟨-, rfl⟩ | ⟨_, _, ⟨-, rfl⟩, -⟩ := hpage <;> rfl

/-! ## The three ways

What a run has done when it fails is all that stands before the step that failed.  For pages into a
directory this is a whole run over the files in front; joined pages are all converted before
anything is made, so there it is nothing, if a page is at fault. -/

theorem attempt_failed {α : Type} {error : FileError → RunError}
    {operation : StateM World (Except FileError α)} {w w' : World} {e : RunError}
    (h : outcome (attempt error operation) w = (.error e, w')) : ∃ cause, e = error cause := by
  rw [outcome_attempt] at h
  cases hr : (operation w).1 with
  | error cause =>
    rw [hr] at h
    exact ⟨cause, (Except.error.inj (Prod.mk.inj h).1).symm⟩
  | ok a =>
    rw [hr] at h
    exact absurd (congrArg Prod.fst h) nofun

/-- **Where pages go to a directory, the failure is that of the directory or of one file**, and in
front of that file everything is as a run over the files in front of it leaves it. -/
theorem runEach_failed {o : Options} (hdry : o.dryRun = false) {directory : Path}
    {files : List Path} {w w' : World} {e : RunError}
    (h : outcome (runEach o directory files) w = (.error e, w')) :
    (∃ cause, e = .notCreated cause) ∨
      ∃ front file behind, files = front ++ file :: behind ∧
        outcome (runEach o directory front) w = (.ok (), w') ∧
        outcome (runInto o directory file) w' = (.error e, w') := by
  rw [outcome_runEach hdry, outcome_bind_eq_error] at h
  obtain h | ⟨⟨⟩, start, hstart, h⟩ := h
  · exact .inl (attempt_failed h)
  · obtain ⟨front, file, behind, mid, rfl, hfront, hfile⟩ := exists_of_outcome_forM_eq_error h
    obtain rfl := runInto_failed hfile
    refine .inr ⟨front, file, behind, rfl, ?_, hfile⟩
    rw [outcome_runEach hdry, outcome_bind_eq_ok]
    exact ⟨(), start, hstart, hfront⟩

/-- **An error of a page**: its file was not read or not converted. -/
def RunError.isOfPage : RunError → Bool
  | .notRead _ _ => true
  | .notConverted _ _ => true
  | _ => false

/-- Where pages are joined, nothing has been put out when one of them is missing. -/
theorem runJoined_failed {o : Options} {files : List Path} {w w' : World} {e : RunError}
    (h : outcome (runJoined o files) w = (.error e, w')) :
    w'.stage = w.stage ∧ (e.isOfPage → w' = w) := by
  unfold runJoined at h
  rw [outcome_bind_eq_error, outcome_mapM_convertFile] at h
  obtain h | ⟨pages, mid, hpages, h⟩ := h
  · obtain rfl := (Prod.mk.inj h).2
    exact ⟨rfl, fun _ => rfl⟩
  · obtain rfl := (Prod.mk.inj hpages).2
    split at h
    · split at h <;> exact absurd (congrArg Prod.fst h) nofun
    · next target htarget =>
      have hkeeps : Keeps World.stage (do
          attempt .notCreated (makeDirectories target.ancestors)
          return pageBreak.intercalate pages : ExceptT RunError (StateM World) String) :=
        .bind (fun w => stage_makeDirectories _ w) fun _ _ => rfl
      have hstage := keeps_deliver o.spares_stage target (some files.length) (fun _ => hkeeps) w
      rw [h] at hstage
      refine ⟨hstage, fun he => ?_⟩
      -- behind the pages only the directories above the target and the write are left to fail
      obtain h | ⟨_, cause, -, rfl⟩ := of_outcome_deliver_eq_error h
      · rw [outcome_bind_eq_error] at h
        obtain h | ⟨_, _, _, h⟩ := h
        · obtain ⟨cause, rfl⟩ := attempt_failed h
          simp [RunError.isOfPage] at he
        · exact absurd (congrArg Prod.fst h) nofun
      · simp [RunError.isOfPage] at he

/-- One page to the standard output comes there whole or not at all. -/
theorem runSingle_failed {o : Options} {file : Path} {w w' : World} {e : RunError}
    (h : outcome (runSingle o file) w = (.error e, w')) : w' = w := by
  unfold runSingle at h
  split at h
  · exact absurd (congrArg Prod.fst h) nofun
  · rw [outcome_bind_eq_error, outcome_convertFile] at h
    obtain h | ⟨_, _, _, h⟩ := h
    · exact (Prod.mk.inj h).2.symm
    · exact absurd (congrArg Prod.fst h) nofun

/-! ## The whole -/

/-- **A conversion that fails puts nothing out.** -/
theorem run_failed {o : Options} {w w' : World} {e : RunError}
    (h : outcome o.run w = (.error e, w')) : w'.stage = w.stage := by
  rw [outcome_run] at h
  split at h
  · rw [(Prod.mk.inj h).2]
  · split at h
    · exact (runJoined_failed h).1
    · split at h
      · rw [runSingle_failed h]
      · rw [(Prod.mk.inj h).2]
      · next directory _ =>
        have hstage := keeps_runEach o.spares_stage directory (w.files o.inputs) w
        rwa [h] at hstage

/-- **A command that fails puts nothing out.** -/
theorem runArguments_failed {arguments : List String} {w w' : World} {e : RunError}
    (h : outcome (runArguments arguments) w = (.error e, w')) : w'.output = w.output := by
  cases hcommand : Command.ofArguments arguments with
  | error cause =>
    unfold runArguments at h
    rw [hcommand] at h
    rw [(Prod.mk.inj h).2]
  | ok command =>
    cases command with
    | convert o =>
      rw [runArguments_of_convert hcommand] at h
      exact congrArg Prod.snd (run_failed h)
    | help | version =>
      unfold runArguments at h
      rw [hcommand] at h
      exact absurd (congrArg Prod.fst h) nofun

/-- **A command that fails** ends with a notice of its error. -/
theorem exists_of_execute_ne_zero {arguments : List String} {w w' : World} {code : Nat}
    (h : execute (m := StateM World) arguments w = (code, w')) (hcode : code ≠ 0) :
    ∃ e left, outcome (runArguments arguments) w = (.error e, left) ∧
      w' = left.say (.failed e) := by
  rw [execute_eq] at h
  rcases hout : outcome (runArguments arguments) w with ⟨e | ⟨⟩, left⟩
  · rw [hout] at h
    exact ⟨e, left, rfl, (Prod.mk.inj h).2.symm⟩
  · rw [hout] at h
    exact absurd (Prod.mk.inj h).1.symm hcode

/-- **A failing command leaves no half-done work**: it says why at the end and has printed nothing.
Where pages are joined, an input that is not read or not converted leaves the world as it was; where
they go one by one into a directory, the failure is that of the directory itself or of one file, and
the command leaves the world that the files in front of that one led to. -/
theorem execute_failed {arguments : List String} {w w' : World} {code : Nat}
    (h : execute (m := StateM World) arguments w = (code, w')) (hcode : code ≠ 0) :
    ∃ e left, w' = left.say (.failed e) ∧ w'.output = w.output ∧
      ∀ o, Command.ofArguments arguments = .ok (.convert o) →
        (o.concat = true → e.isOfPage → left = w) ∧
        ∀ directory, o.output = .path directory → o.concat = false → o.dryRun = false →
          (e = .noInput ∧ left = w) ∨ (∃ cause, e = .notCreated cause) ∨
          ∃ front file behind, w.files o.inputs = front ++ file :: behind ∧
            outcome (runEach o directory front) w = (.ok (), left) ∧
            outcome (runInto o directory file) left = (.error e, left) := by
  obtain ⟨e, left, hrun, rfl⟩ := exists_of_execute_ne_zero h hcode
  refine ⟨e, left, rfl, ?_, fun o ho =>
    ⟨fun hconcat he => ?_, fun directory hout hconcat hdry => ?_⟩⟩
  · rw [World.output_say]
    exact runArguments_failed hrun
  · rw [runArguments_of_convert ho, outcome_run, hconcat] at hrun
    split at hrun
    · exact (Prod.mk.inj hrun).2.symm
    · exact (runJoined_failed hrun).2 he
  · rw [runArguments_of_convert ho, outcome_run, hconcat, hout] at hrun
    split at hrun
    · obtain ⟨he, hw⟩ := Prod.mk.inj hrun
      exact .inl ⟨(Except.error.inj he).symm, hw.symm⟩
    · exact .inr (runEach_failed hdry hrun)

/-- A disk with one file, `a.xml`. -/
def oneFile : Disk :=
  Disk.empty.put [] "a.xml" (.file "<a/>".toUTF8) (by decide) (by decide)

/-- Two files are asked for and the second one is missing: the first one has been written. -/
theorem execute_failed_missingFile :
    let o : Options := ⟨[⟨"a.xml"⟩, ⟨"b.xml"⟩], .path ⟨"out"⟩, false, false, false, false⟩
    ∃ code w' left front file behind,
      execute (m := StateM World) ["-o", "out", "a.xml", "b.xml"] (.ofDisk oneFile []) =
        (code, w') ∧ code ≠ 0 ∧ w'.output = "" ∧
      (World.ofDisk oneFile []).files o.inputs = front ++ file :: behind ∧
      outcome (runEach o ⟨"out"⟩ front) (.ofDisk oneFile []) = (.ok (), left) ∧
      w'.disk = left.disk := by
  intro o
  have hcode : (execute (m := StateM World) ["-o", "out", "a.xml", "b.xml"]
      (.ofDisk oneFile [])).1 ≠ 0 := by decide +kernel
  have hlast : (execute (m := StateM World) ["-o", "out", "a.xml", "b.xml"]
      (.ofDisk oneFile [])).2.notices.getLast? =
        some (.failed (.notRead ⟨"b.xml"⟩ .notFound)) := by decide +kernel
  rcases hrun : execute (m := StateM World) ["-o", "out", "a.xml", "b.xml"]
      (.ofDisk oneFile []) with ⟨code, w'⟩
  rw [hrun] at hcode hlast
  obtain ⟨e, left, rfl, houtput, hconvert⟩ := execute_failed hrun hcode
  obtain rfl : e = .notRead ⟨"b.xml"⟩ .notFound := by
    rw [World.say, List.getLast?_concat] at hlast
    exact Notice.failed.inj (Option.some.inj hlast)
  obtain ⟨he, -⟩ | ⟨_, he⟩ | ⟨front, file, behind, hfiles, hfront, -⟩ :=
    (hconvert o rfl).2 ⟨"out"⟩ rfl rfl rfl
  · exact absurd he nofun
  · exact absurd he nofun
  · exact ⟨code, _, left, front, file, behind, rfl, hcode, houtput, hfiles, hfront, rfl⟩

end DocMarkdown
