import DocMarkdown.Proofs.Command.Frame
import Mathlib.Data.List.Forall2

/-!
# Proofs/Command/Agreement — the ways of a conversion agree

The pages of the files go to the standard output or into a file, joined; a page that is alone goes
there by itself, or into a directory.  All these ways lead to one text, with a line end more on the
standard output (`execute_agree`).

What lets a text into its file differs: a joined output is looked for before the directories above
it are made, and a page in a directory behind the making of it.  So a page that was absent may be
there by then, and is left alone (`kept_of_stepUp`).
-/

namespace DocMarkdown

/-! ## What lets a text into its file

The two conditions are the tests of the two ways, in the order in which they are made.  They can be
decided by trying. -/

/-- **A joined output is let through**: nothing is there or there is force, the directories above it
can be made, and behind them it can be written. -/
def Options.Admits (o : Options) (w : World) (target : Path) : Prop :=
  let made := makeDirectories (m := StateM World) target.ancestors w
  (o.force = false → w.disk.isPresent w.base target = false) ∧
    made.1 = .ok () ∧ made.2.disk.Writable made.2.base target

/-- **A page is let into a directory**: the directory can be made, and behind that nothing is in the
place of the page or there is force, and it can be written. -/
def Options.AdmitsInto (o : Options) (w : World) (directory : Path) (name : String) : Prop :=
  let made := outcome (prepareDirectory directory) w
  made.1 = .ok () ∧
    (o.force = false → made.2.disk.isPresent made.2.base (directory.join name) = false) ∧
    made.2.disk.Writable made.2.base (directory.join name)

instance (o : Options) (w : World) (target : Path) : Decidable (o.Admits w target) :=
  inferInstanceAs (Decidable (_ ∧ _ ∧ _))

instance (o : Options) (w : World) (directory : Path) (name : String) :
    Decidable (o.AdmitsInto w directory name) :=
  inferInstanceAs (Decidable (_ ∧ _ ∧ _))

section Ways

variable {o : Options} {w : World}

/-! ## Into a file -/

/-- **A delivery that is let through** leaves its text in the file. -/
theorem exists_outcome_deliver (hdry : o.dryRun = false) {target : Path} (joined? : Option Nat)
    {page : ExceptT RunError (StateM World) String} {text : String} {mid : World}
    (hfound : o.force = false → w.disk.isPresent w.base target = false)
    (hpage : outcome page w = (.ok text, mid)) (hwritable : mid.disk.Writable mid.base target) :
    ∃ w', outcome (deliver o target joined? page) w = (.ok (), w') ∧ w'.stage = mid.stage ∧
      w'.disk.read w'.base target = .ok text := by
  obtain ⟨d, hwrite⟩ := hwritable.exists_write text
  have hthrough : ¬(w.disk.isPresent w.base target && !o.force) = true := by
    cases hforce : o.force <;> simp_all
  refine ⟨World.report { mid with disk := d } o (.wrote target joined?), ?_, ?_, ?_⟩
  · rw [outcome_deliver, hdry, if_neg Bool.false_ne_true, if_neg hthrough, hpage]
    dsimp only
    rw [hwrite]
  · exact World.stage_report _ _ _
  · have hbase : (World.report { mid with disk := d } o (.wrote target joined?)).base = mid.base :=
      congrArg Prod.fst (World.stage_report _ _ _)
    rw [World.disk_report, hbase]
    exact Disk.read_of_write hwrite

/-- **Joined pages that are let through** are in their file. -/
theorem exists_outcome_runJoined (hdry : o.dryRun = false) {target : Path}
    (hout : o.output = .path target) {files : List Path} {pages : List String}
    (hpages : files.mapM w.page = .ok pages) (hadmits : o.Admits w target) :
    ∃ w', outcome (runJoined o files) w = (.ok (), w') ∧ w'.stage = w.stage ∧
      w'.disk.read w'.base target = .ok (pageBreak.intercalate pages) := by
  obtain ⟨hfound, hmade, hwritable⟩ := hadmits
  have hstage := stage_makeDirectories target.ancestors w
  generalize hmake : makeDirectories (m := StateM World) target.ancestors w = made
    at hmade hwritable hstage
  obtain ⟨result, mid⟩ := made
  obtain rfl : result = .ok () := hmade
  rw [outcome_runJoined_of_path hout hpages, ← hstage]
  refine exists_outcome_deliver hdry _ hfound ?_ hwritable
  rw [outcome_bind, outcome_attempt, hmake]
  rfl

/-- **A page that is let into a directory** is there by the stem of its file. -/
theorem exists_outcome_runEach (hdry : o.dryRun = false) {directory file : Path}
    {stem page : String} (hstem : file.stem? = some stem) (hpage : w.page file = .ok page)
    (hadmits : o.AdmitsInto w directory (stem ++ ".md")) :
    ∃ w', outcome (runEach o directory [file]) w = (.ok (), w') ∧ w'.stage = w.stage ∧
      w'.disk.read w'.base (directory.join (stem ++ ".md")) = .ok page := by
  obtain ⟨hmade, hfound, hwritable⟩ := hadmits
  have hstage : (outcome (prepareDirectory directory) w).2.stage = w.stage :=
    stage_makeDirectories directory.directories w
  have hmoves : w.Moves false (fun _ => True) (fun _ => False)
      (outcome (prepareDirectory directory) w).2 := moves_makeDirectories (fun _ _ => trivial) w
  generalize hmake : outcome (prepareDirectory directory) w = made
    at hmade hfound hwritable hstage hmoves
  obtain ⟨result, mid⟩ := made
  obtain rfl : result = .ok () := hmade
  have hconvert : outcome (convertFile file) mid = (.ok page, mid) := by
    rw [outcome_convertFile, hmoves.page hpage]
  obtain ⟨w', hdeliver, hstage', hread⟩ :=
    exists_outcome_deliver hdry none hfound hconvert hwritable
  refine ⟨w', ?_, hstage'.trans hstage, hread⟩
  rw [outcome_runEach hdry, outcome_bind_eq_ok]
  refine ⟨(), mid, hmake, ?_⟩
  rw [outcome_forM_cons, outcome_bind_eq_ok]
  refine ⟨(), w', ?_, outcome_forM_nil _ _⟩
  rw [outcome_runInto, hstem]
  exact hdeliver

/-! ## To the standard output -/

/-- Pages of all files are pages of them together. -/
theorem mapM_page_of_forall₂ {files : List Path} {pages : List String}
    (h : List.Forall₂ (fun file page => w.page file = .ok page) files pages) :
    files.mapM w.page = .ok pages := by
  induction h with
  | nil => rfl
  | cons hpage _ ih =>
    rw [List.mapM_cons, hpage, ih]
    rfl

theorem outcome_runJoined_of_standard (hdry : o.dryRun = false) (hout : o.output = .standard)
    {files : List Path} {pages : List String} (hpages : files.mapM w.page = .ok pages) :
    outcome (runJoined o files) w =
      (.ok (), { w with output := w.output ++ (pageBreak.intercalate pages ++ "\n") }) := by
  unfold runJoined
  rw [outcome_bind, outcome_mapM_convertFile, hpages, hout, hdry]
  rfl

theorem outcome_runSingle_of_page (hdry : o.dryRun = false) {file : Path} {page : String}
    (hpage : w.page file = .ok page) :
    outcome (runSingle o file) w =
      (.ok (), { w with output := w.output ++ (page ++ "\n") }) := by
  unfold runSingle
  rw [hdry, if_neg Bool.false_ne_true, outcome_bind, outcome_convertFile, hpage]
  rfl

end Ways

/-! ## All ways

Each way is followed by itself first (`execute_joined`, `execute_single`).  That they agree is then
no more than this: one page, joined, is that page. -/

/-- **A text is left in a file** by a run that goes well and prints nothing. -/
def World.Leaves (w : World) (run : Nat × World) (target : Path) (text : String) : Prop :=
  run.1 = 0 ∧ run.2.output = w.output ∧ run.2.disk.read w.base target = .ok text

instance (w : World) (run : Nat × World) (target : Path) (text : String) :
    Decidable (w.Leaves run target text) :=
  inferInstanceAs (Decidable (_ ∧ _ ∧ _))

theorem leaves_of_stage {w w' : World} {target : Path} {text : String}
    (hstage : w'.stage = w.stage) (hread : w'.disk.read w'.base target = .ok text) :
    w.Leaves (0, w') target text := by
  obtain ⟨hbase, houtput⟩ := Prod.mk.inj hstage
  exact ⟨rfl, houtput, hbase ▸ hread⟩

section Commands

variable {w : World} {pages : List String} {arguments : List String} {o : Options}

/-- **Joined pages**, printed or left in their file. -/
theorem execute_joined (hfiles : w.files o.inputs ≠ [])
    (hpages : (w.files o.inputs).mapM w.page = .ok pages)
    (hcommand : Command.ofArguments arguments = .ok (.convert o)) (hdry : o.dryRun = false)
    (hconcat : o.concat = true) :
    (o.output = .standard → execute (m := StateM World) arguments w =
      (0, { w with output := w.output ++ (pageBreak.intercalate pages ++ "\n") })) ∧
    ∀ target, o.output = .path target → o.Admits w target →
      w.Leaves (execute (m := StateM World) arguments w) target
        (pageBreak.intercalate pages) := by
  refine ⟨fun hout => ?_, fun target hout hadmits => ?_⟩
  · refine execute_of_outcome_run_ok hcommand ?_
    rw [outcome_run_of_concat hfiles hconcat, outcome_runJoined_of_standard hdry hout hpages]
  · obtain ⟨w', hway, hstage, hread⟩ := exists_outcome_runJoined hdry hout hpages hadmits
    rw [← outcome_run_of_concat hfiles hconcat] at hway
    rw [execute_of_outcome_run_ok hcommand hway]
    exact leaves_of_stage hstage hread

/-- **A page that is alone**, printed or left in a directory. -/
theorem execute_single {file : Path} {page : String} (hfile : w.files o.inputs = [file])
    (hpage : w.page file = .ok page)
    (hcommand : Command.ofArguments arguments = .ok (.convert o)) (hdry : o.dryRun = false)
    (hconcat : o.concat = false) :
    (o.output = .standard → execute (m := StateM World) arguments w =
      (0, { w with output := w.output ++ (page ++ "\n") })) ∧
    ∀ directory, o.output = .path directory → ∃ stem, file.stem? = some stem ∧
      (o.AdmitsInto w directory (stem ++ ".md") →
        w.Leaves (execute (m := StateM World) arguments w) (directory.join (stem ++ ".md"))
          page) := by
  refine ⟨fun hout => ?_, fun directory hout => ?_⟩
  · refine execute_of_outcome_run_ok hcommand ?_
    rw [outcome_run_of_single hfile hconcat hout, outcome_runSingle_of_page hdry hpage]
  · obtain ⟨text, hread, -⟩ := World.page_eq_ok.mp hpage
    obtain ⟨stem, hstem⟩ := Disk.exists_stem?_of_read hread
    refine ⟨stem, hstem, fun hadmits => ?_⟩
    obtain ⟨w', hway, hstage, hread⟩ := exists_outcome_runEach hdry hstem hpage hadmits
    have hrun : outcome o.run w = (.ok (), w') := by
      rw [outcome_run, hfile, if_neg (List.cons_ne_nil _ _), hconcat, hout]
      exact hway
    rw [execute_of_outcome_run_ok hcommand hrun]
    exact leaves_of_stage hstage hread

end Commands

/-- **The ways of a conversion agree.**  Where all files have pages, they are joined to one text,
with a break between any two of them.  It is what the joined standard output gets, with a line end
behind it, and what is left in a joined output that is let through.  A page that is alone gets to
the standard output as it does joined, and into a directory as it does into a joined output; several
pages do not go to the standard output unless they are joined. -/
theorem execute_agree {w : World} {inputs : List Path} {pages : List String}
    (hfiles : w.files inputs ≠ [])
    (hpages : List.Forall₂ (fun file page => w.page file = .ok page) (w.files inputs) pages)
    {arguments : List String} {o : Options}
    (hcommand : Command.ofArguments arguments = .ok (.convert o)) (hinputs : o.inputs = inputs)
    (hdry : o.dryRun = false) :
    let joined := pageBreak.intercalate pages
    let printed : World := { w with output := w.output ++ (joined ++ "\n") }
    let run := execute (m := StateM World) arguments w
    (o.concat = true →
      (o.output = .standard → run = (0, printed)) ∧
      ∀ target, o.output = .path target → o.Admits w target → w.Leaves run target joined) ∧
    (o.concat = false →
      (o.output = .standard → pages.length = 1 → run = (0, printed)) ∧
      (o.output = .standard → pages.length > 1 → run = (1, w.say (.failed .severalToOutput))) ∧
      ∀ directory file, o.output = .path directory → w.files inputs = [file] →
        ∃ stem, file.stem? = some stem ∧ (o.AdmitsInto w directory (stem ++ ".md") →
          w.Leaves run (directory.join (stem ++ ".md")) joined)) := by
  subst hinputs
  refine ⟨execute_joined hfiles (mapM_page_of_forall₂ hpages) hcommand hdry, fun hconcat =>
    ⟨fun hout hone => ?_, fun hout hseveral => ?_, fun directory file hout hfile => ?_⟩⟩
  · obtain ⟨page, rfl⟩ := List.length_eq_one_iff.mp hone
    obtain ⟨file, _, hpage, hnil, hfile⟩ := List.forall₂_cons_right_iff.mp hpages
    rw [List.forall₂_nil_right_iff.mp hnil] at hfile
    exact (execute_single hfile hpage hcommand hdry hconcat).1 hout
  · rw [← hpages.length_eq] at hseveral
    exact execute_of_outcome_run_error hcommand (outcome_run_of_several hseveral hconcat hout)
  · rw [hfile] at hpages
    obtain ⟨page, _, hpage, hnil, rfl⟩ := List.forall₂_cons_left_iff.mp hpages
    obtain rfl := List.forall₂_nil_left_iff.mp hnil
    exact (execute_single hfile hpage hcommand hdry hconcat).2 directory hout

/-- A page into a directory that is made for it, and into the same file as a joined output. -/
theorem execute_agree_newDirectory :
    let w : World := .ofDisk oldPage []
    let into := execute (m := StateM World) ["-o", "out", "a.xml"] w
    let joined := execute (m := StateM World) ["--concat", "-o", "out/a.md", "a.xml"] w
    w.Leaves into ⟨"out/a.md"⟩ "A\n\n" ∧ w.Leaves joined ⟨"out/a.md"⟩ "A\n\n" := by
  intro w into joined
  have hgathered : w.files [⟨"a.xml"⟩] = [⟨"a.xml"⟩] := by decide +kernel
  have hpage : w.page ⟨"a.xml"⟩ = .ok "A\n\n" := by decide +kernel
  have hfiles : w.files [⟨"a.xml"⟩] ≠ [] := by rw [hgathered]; exact List.cons_ne_nil _ _
  have hpages : List.Forall₂ (fun file page => w.page file = .ok page) (w.files [⟨"a.xml"⟩])
      ["A\n\n"] := by rw [hgathered]; exact .cons hpage .nil
  constructor
  · let o : Options := ⟨[⟨"a.xml"⟩], .path ⟨"out"⟩, false, false, false, false⟩
    have hcommand : Command.ofArguments ["-o", "out", "a.xml"] = .ok (.convert o) := rfl
    have hadmits : o.AdmitsInto w ⟨"out"⟩ "a.md" := by decide +kernel
    obtain ⟨stem, hstem, hleaves⟩ :=
      ((execute_agree hfiles hpages hcommand rfl rfl).2 rfl).2.2 ⟨"out"⟩ ⟨"a.xml"⟩ rfl hgathered
    obtain rfl : "a" = stem := Option.some.inj (Eq.trans (by decide +kernel) hstem)
    exact hleaves hadmits
  · let o : Options := ⟨[⟨"a.xml"⟩], .path ⟨"out/a.md"⟩, true, false, false, false⟩
    have hcommand : Command.ofArguments ["--concat", "-o", "out/a.md", "a.xml"] =
      .ok (.convert o) := rfl
    have hadmits : o.Admits w ⟨"out/a.md"⟩ := by decide +kernel
    exact ((execute_agree hfiles hpages hcommand rfl rfl).1 rfl).2 ⟨"out/a.md"⟩ rfl hadmits

/-- **A page that was absent can be left alone**: `new/../a.md` is not found, and leads to `a.md`
when the run has made `new`, so the run into a directory keeps what is there, while a joined output
overwrites it. -/
theorem kept_of_stepUp :
    let w : World := .ofDisk oldPage []
    let target : Path := ⟨"new/../a.md"⟩
    let into := execute (m := StateM World) ["-o", "new/..", "a.xml"] w
    let joined := execute (m := StateM World) ["--concat", "-o", "new/../a.md", "a.xml"] w
    w.files [⟨"a.xml"⟩] = [⟨"a.xml"⟩] ∧ w.page ⟨"a.xml"⟩ = .ok "A\n\n" ∧
      (⟨"new/.."⟩ : Path).join "a.md" = target ∧
      w.disk.isPresent w.base target = false ∧ into.2.disk.Writable w.base target ∧
      w.Leaves into target "old" ∧ w.Leaves joined target "A\n\n" := by
  decide +kernel

end DocMarkdown
