import DocMarkdown.Proofs.Command.Frame

/-!
# Proofs/Command/Quiet — what a quiet conversion says

All that is said of progress goes through one gate, so a quiet conversion that is no dry run keeps
its notices as they were, whatever it writes or leaves alone (`Options.spares_notices`).  What a dry
run tells does not go through it: `forecast` is told in full, quiet or not
(`notices_run_of_dryRun`).  A quiet conversion that goes well is silent, then, just where it is no
dry run (`notices_of_quiet`).
-/

namespace DocMarkdown

/-! ## A run in earnest

`report` is the gate.  A quiet run says nothing through it, so the notices are a view that its
deliveries spare, and `keeps_run` does the rest. -/

theorem World.report_of_quiet {o : Options} (h : o.quiet = true) (w : World) (n : Notice) :
    w.report o n = w := by
  rw [report, h, if_pos rfl]

section Silence

variable {o : Options} (hquiet : o.quiet = true) (hdry : o.dryRun = false)

include hquiet hdry

theorem Options.spares_notices : o.Spares World.notices where
  say h := absurd (hdry.symm.trans h) nofun
  report _ w n := by rw [World.report_of_quiet hquiet]
  disk _ _ _ := rfl

/-- **A quiet run in earnest says nothing**, whether it succeeds or fails. -/
theorem keeps_notices_run : Keeps World.notices o.run :=
  keeps_run (fun h => absurd (hdry.symm.trans h) nofun) (fun _ _ _ _ => rfl)
    fun _ => Options.spares_notices hquiet hdry

end Silence

/-! ## A dry run

A dry run says its lines past the gate.  They depend on the options and the files only, and a
conversion without a file fails, so there is always one. -/

/-- **What a dry run tells** of files: what would go to the output, or which pages would be
written. -/
def Options.forecast (o : Options) (files : List Path) : List Notice :=
  match o.output with
  | .standard =>
    if o.concat then [.wouldPrintJoined files.length] else files.map .wouldPrint
  | .path target =>
    if o.concat then [.wouldWrite target (some files.length)]
    else (files.filterMap Path.stem?).map fun stem =>
      .wouldWrite (target.join (stem ++ ".md")) none

section Forecast

variable {o : Options} {directory : Path} {files : List Path} {w w' : World}

/-- **A dry run into a directory tells of one page for each file**: all of them have a name. -/
theorem notices_forM_of_dryRun (hdry : o.dryRun = true)
    (h : outcome (files.forM (runInto o directory)) w = (.ok (), w')) :
    (w'.notices = w.notices ++ (files.filterMap Path.stem?).map fun stem =>
      .wouldWrite (directory.join (stem ++ ".md")) none) ∧
      (files.filterMap Path.stem?).length = files.length := by
  refine forM_induction (fun done w' =>
    (w'.notices = w.notices ++ (done.filterMap Path.stem?).map fun stem =>
      .wouldWrite (directory.join (stem ++ ".md")) none) ∧
      (done.filterMap Path.stem?).length = done.length) ⟨by simp, rfl⟩ ?_ h
  rintro front file behind mid mid' - ⟨hnotices, hlength⟩ hrun
  rw [outcome_runInto] at hrun
  split at hrun
  · exact absurd (congrArg Prod.fst hrun) nofun
  · next stem hstem =>
    rw [outcome_deliver, if_pos hdry] at hrun
    obtain rfl := (Prod.mk.inj hrun).2
    simp [List.filterMap_append, hstem, hlength, World.say, hnotices]

/-- Joined pages are told of by their number. -/
theorem notices_runJoined_of_dryRun (hdry : o.dryRun = true) (hconcat : o.concat = true)
    (h : outcome (runJoined o files) w = (.ok (), w')) :
    w'.notices = w.notices ++ o.forecast files ∧ o.forecast files ≠ [] := by
  obtain ⟨pages, hpages⟩ := exists_pages_of_outcome_runJoined_eq_ok h
  rw [Options.forecast]
  cases hout : o.output with
  | standard =>
    have hway : outcome (runJoined o files) w =
        (.ok (), w.say (.wouldPrintJoined files.length)) := by
      unfold runJoined
      rw [outcome_bind, outcome_mapM_convertFile, hpages, hout, hdry]
      rfl
    obtain rfl := (Prod.mk.inj (hway.symm.trans h)).2
    simp [hconcat, World.say]
  | path target =>
    rw [outcome_runJoined_of_path hout hpages, outcome_deliver, if_pos hdry] at h
    obtain rfl := (Prod.mk.inj h).2
    simp [hconcat, World.say]

/-- **What a dry run says** is its forecast, and there is something in it. -/
theorem notices_run_of_dryRun (hdry : o.dryRun = true) (h : outcome o.run w = (.ok (), w')) :
    w'.notices = w.notices ++ o.forecast (w.files o.inputs) ∧
      o.forecast (w.files o.inputs) ≠ [] := by
  rw [outcome_run] at h
  generalize w.files o.inputs = files at h ⊢
  split at h
  · exact absurd (congrArg Prod.fst h) nofun
  · next hfiles =>
    split at h
    · next hconcat => exact notices_runJoined_of_dryRun hdry hconcat h
    · next hconcat =>
      split at h
      · next file hout =>
        have hway : outcome (runSingle o file) w = (.ok (), w.say (.wouldPrint file)) := by
          unfold runSingle
          rw [if_pos hdry]
          rfl
        obtain rfl := (Prod.mk.inj (hway.symm.trans h)).2
        simp [Options.forecast, hout, hconcat, World.say]
      · exact absurd (congrArg Prod.fst h) nofun
      · next target hout =>
        rw [outcome_runEach_of_dryRun hdry] at h
        obtain ⟨hnotices, hlength⟩ := notices_forM_of_dryRun hdry h
        simp only [Options.forecast, hout, if_neg hconcat]
        refine ⟨hnotices, fun hnil => hfiles ?_⟩
        rw [List.map_eq_nil_iff] at hnil
        rw [hnil] at hlength
        exact List.eq_nil_of_length_eq_zero hlength.symm

end Forecast

/-! ## A command -/

/-- **A quiet command that goes well** says nothing, unless it is a dry run: a dry run tells all
that it would do, however quiet it is asked to be. -/
theorem notices_of_quiet {arguments : List String} {o : Options} {w w' : World}
    (hcommand : Command.ofArguments arguments = .ok (.convert o)) (hquiet : o.quiet = true)
    (hrun : execute (m := StateM World) arguments w = (0, w')) :
    w'.notices = w.notices ++ (if o.dryRun then o.forecast (w.files o.inputs) else []) ∧
      (w'.notices = w.notices ↔ o.dryRun = false) := by
  have h := outcome_of_execute_eq_zero hrun
  rw [runArguments_of_convert hcommand] at h
  cases hdry : o.dryRun with
  | false =>
    have hkept := keeps_notices_run hquiet hdry w
    rw [h] at hkept
    simpa using hkept
  | true =>
    obtain ⟨hnotices, hsome⟩ := notices_run_of_dryRun hdry h
    simp [hnotices, hsome]

/-- A page that is there is left alone without a word. -/
theorem notices_of_quiet_skipped :
    let run := execute (m := StateM World) ["-q", "-o", ".", "a.xml"] (.ofDisk oldPage [])
    run.1 = 0 ∧ run.2.notices = [] := by
  intro run
  let o : Options := ⟨[⟨"a.xml"⟩], .path ⟨"."⟩, false, true, false, false⟩
  have hcommand : Command.ofArguments ["-q", "-o", ".", "a.xml"] = .ok (.convert o) := rfl
  have hrun : run.1 = 0 := by decide +kernel
  exact ⟨hrun, (notices_of_quiet hcommand rfl (Prod.ext hrun rfl)).2.mpr rfl⟩

/-- **A quiet dry run is not silent.** -/
theorem noticeText_of_quiet_dryRun :
    let run := execute (m := StateM World) ["-q", "-n", "-o", "out", "a.xml"] (.ofDisk oldPage [])
    (∃ o, Command.ofArguments ["-q", "-n", "-o", "out", "a.xml"] = .ok (.convert o) ∧
      o.quiet = true) ∧ run.1 = 0 ∧ run.2.noticeText = "Would write out/a.md\n" := by
  exact ⟨⟨_, rfl, rfl⟩, by decide +kernel⟩

end DocMarkdown
