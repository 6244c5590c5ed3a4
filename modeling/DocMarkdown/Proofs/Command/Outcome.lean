import DocMarkdown.Command.Execute
import DocMarkdown.Proofs.Files.Segments

/-!
# Proofs/Command/Outcome — what each part of a command comes to

On the plain world a command is a function: an action comes to a result and to the world behind it
(`outcome`).  Each part of the command has one equation for it, in which the parts that only look at
the disk leave the world alone:

    gather          the files of a list of inputs      `World.files`
    convertFile     the page of a file                 `World.page`
    deliver         a page into a file                 `outcome_deliver`

Behind these equations nothing reads the monad any more.
-/

namespace DocMarkdown

/-! ## Actions

A sequence runs its second action in the world that the first one led to, and stops at an error.  A
loop that goes well is taken element by element (`forM_induction`); one that fails is cut at the
element that failed, behind a loop that went well. -/

/-- **What an action comes to from a world**: its result, and the world behind it. -/
def outcome {α : Type} (x : ExceptT RunError (StateM World) α) (w : World) :
    Except RunError α × World :=
  x.run w

section Actions

variable {α β : Type}

/-- An action that fails ends the sequence it stands in. -/
theorem outcome_bind (x : ExceptT RunError (StateM World) α)
    (f : α → ExceptT RunError (StateM World) β) (w : World) :
    outcome (x >>= f) w =
      match outcome x w with
      | (.ok a, w') => outcome (f a) w'
      | (.error e, w') => (.error e, w') := by
  show (ExceptT.bindCont f (x.run w).1).run (x.run w).2 = _
  rw [outcome]
  rcases x.run w with ⟨r, w'⟩
  cases r <;> rfl

theorem outcome_lift (x : StateM World α) (w : World) :
    outcome (liftM x) w = (.ok (x w).1, (x w).2) := rfl

theorem outcome_attempt (error : FileError → RunError)
    (operation : StateM World (Except FileError α)) (w : World) :
    outcome (attempt error operation) w = ((operation w).1.mapError error, (operation w).2) := rfl

/-- A sequence of two actions succeeds as both of them do, one behind the other. -/
theorem outcome_bind_eq_ok {x : ExceptT RunError (StateM World) α}
    {f : α → ExceptT RunError (StateM World) β} {w w' : World} {b : β} :
    outcome (x >>= f) w = (.ok b, w') ↔
      ∃ a mid, outcome x w = (.ok a, mid) ∧ outcome (f a) mid = (.ok b, w') := by
  rw [outcome_bind]
  rcases outcome x w with ⟨_ | a, mid⟩ <;> simp [and_assoc]

/-- A sequence of two actions fails at the first of them or, behind it, at the second. -/
theorem outcome_bind_eq_error {x : ExceptT RunError (StateM World) α}
    {f : α → ExceptT RunError (StateM World) β} {w w' : World} {e : RunError} :
    outcome (x >>= f) w = (.error e, w') ↔
      outcome x w = (.error e, w') ∨
        ∃ a mid, outcome x w = (.ok a, mid) ∧ outcome (f a) mid = (.error e, w') := by
  rw [outcome_bind]
  rcases outcome x w with ⟨_ | a, mid⟩ <;> simp [and_assoc]

theorem outcome_forM_nil (f : α → ExceptT RunError (StateM World) Unit) (w : World) :
    outcome (([] : List α).forM f) w = (.ok (), w) := rfl

theorem outcome_forM_cons (f : α → ExceptT RunError (StateM World) Unit) (x : α) (xs : List α)
    (w : World) :
    outcome ((x :: xs).forM f) w = outcome (f x >>= fun _ => xs.forM f) w := rfl

/-- **A loop that fails does so at one element**, behind a loop over those in front of it that
succeeds; the elements behind it are never come to. -/
theorem exists_of_outcome_forM_eq_error {f : α → ExceptT RunError (StateM World) Unit}
    {xs : List α} {w w' : World} {e : RunError} (h : outcome (xs.forM f) w = (.error e, w')) :
    ∃ front x behind mid, xs = front ++ x :: behind ∧ outcome (front.forM f) w = (.ok (), mid) ∧
      outcome (f x) mid = (.error e, w') := by
  induction xs generalizing w with
  | nil => exact absurd (congrArg Prod.fst h) nofun
  | cons x xs ih =>
    rw [outcome_forM_cons, outcome_bind_eq_error] at h
    obtain hx | ⟨⟨⟩, mid, hx, hxs⟩ := h
    · exact ⟨[], x, xs, w, rfl, rfl, hx⟩
    · obtain ⟨front, y, behind, last, rfl, hfront, hy⟩ := ih hxs
      refine ⟨x :: front, y, behind, last, rfl, ?_, hy⟩
      rw [outcome_forM_cons, outcome_bind_eq_ok]
      exact ⟨(), mid, hx, hfront⟩

/-- **An invariant of a loop**, over the elements that are behind and the world they led to. -/
theorem forM_induction {f : α → ExceptT RunError (StateM World) Unit} {xs : List α}
    {w w' : World} (P : List α → World → Prop) (start : P [] w)
    (step : ∀ front x behind mid mid', xs = front ++ x :: behind → P front mid →
      outcome (f x) mid = (.ok (), mid') → P (front ++ [x]) mid')
    (h : outcome (xs.forM f) w = (.ok (), w')) : P xs w' := by
  suffices H : ∀ behind front mid, xs = front ++ behind → P front mid →
      outcome (behind.forM f) mid = (.ok (), w') → P xs w' from H xs [] w rfl start h
  intro behind
  induction behind with
  | nil =>
    intro front mid hxs hmid hrun
    simp only [outcome_forM_nil, Prod.mk.injEq, true_and] at hrun
    rwa [hxs, List.append_nil, ← hrun]
  | cons x behind ih =>
    intro front mid hxs hmid hrun
    rw [outcome_forM_cons, outcome_bind_eq_ok] at hrun
    obtain ⟨⟨⟩, mid', hx, hbehind⟩ := hrun
    exact ih (front ++ [x]) mid' (by simp [hxs]) (step front x behind mid mid' hxs hmid hx) hbehind

/-! ### What an action keeps

A view is any part of the world: its disk, its notices, what it has printed.  That an action keeps
one says nothing of how the action ends, so sequences and loops keep what their parts keep. -/

/-- **An action keeps a view of the world**, whether it succeeds or fails. -/
def Keeps (view : World → β) (x : ExceptT RunError (StateM World) α) : Prop :=
  ∀ w, view (outcome x w).2 = view w

variable {γ : Type} {view : World → γ}

theorem keeps_of_outcome_eq {x : ExceptT RunError (StateM World) α}
    {result : World → Except RunError α} (h : ∀ w, outcome x w = (result w, w)) :
    Keeps view x := fun w => by rw [h]

theorem Keeps.bind {x : ExceptT RunError (StateM World) α}
    {f : α → ExceptT RunError (StateM World) β} (hx : Keeps view x) (hf : ∀ a, Keeps view (f a)) :
    Keeps view (x >>= f) := by
  intro w
  have hxw := hx w
  rw [outcome_bind]
  generalize outcome x w = result at hxw ⊢
  rcases result with ⟨e | a, w'⟩
  · exact hxw
  · exact (hf a w').trans hxw

theorem Keeps.forM {f : α → ExceptT RunError (StateM World) Unit} (hf : ∀ a, Keeps view (f a))
    (xs : List α) : Keeps view (xs.forM f) := by
  induction xs with
  | nil => exact fun _ => rfl
  | cons x xs ih => exact (hf x).bind fun _ => ih

end Actions

/-! ## Looking at the disk

What only looks is a function of the world: gathering is `World.files`, and reading and converting a
file together are `World.page`.  The world behind them is the one in front. -/

namespace World

/-- One more notice. -/
def say (w : World) (n : Notice) : World := { w with notices := w.notices ++ [n] }

/-- A notice of progress, unless the conversion is quiet. -/
def report (w : World) (o : Options) (n : Notice) : World := if o.quiet then w else w.say n

theorem report_of_not_quiet {o : Options} (h : o.quiet = false) (w : World) (n : Notice) :
    w.report o n = w.say n := by
  rw [report, h]
  rfl

@[simp] theorem base_say (w : World) (n : Notice) : (w.say n).base = w.base := rfl

@[simp] theorem disk_say (w : World) (n : Notice) : (w.say n).disk = w.disk := rfl

@[simp] theorem output_say (w : World) (n : Notice) : (w.say n).output = w.output := rfl

@[simp] theorem disk_report (w : World) (o : Options) (n : Notice) :
    (w.report o n).disk = w.disk := by
  unfold report; split <;> rfl

/-- **What only printing changes**: the directory that the command works in, and the output. -/
def stage (w : World) : Place × String := (w.base, w.output)

@[simp] theorem stage_report (w : World) (o : Options) (n : Notice) :
    (w.report o n).stage = w.stage := by
  unfold report; split <;> rfl

/-- **The files that an input stands for.** -/
def filesOf (w : World) (p : Path) : List Path :=
  if w.disk.isDirectory w.base p then (w.disk.listing w.base p).filter Path.isDocumentation
  else [p]

/-- **The files that inputs stand for.** -/
def files (w : World) (inputs : List Path) : List Path := inputs.flatMap w.filesOf

/-- **The page of a file.** -/
def page (w : World) (p : Path) : Except RunError String :=
  match w.disk.read w.base p with
  | .error e => .error (.notRead p e)
  | .ok text =>
    match convert text with
    | .error e => .error (.notConverted p e)
    | .ok page => .ok page

end World

theorem gather_eq (inputs : List Path) (w : World) :
    gather (m := StateM World) inputs w = (w.files inputs, w) := by
  induction inputs with
  | nil => rfl
  | cons p ps ih =>
    have hcons : gather (m := StateM World) (p :: ps) w =
        (w.filesOf p ++ (gather (m := StateM World) ps w).1,
          (gather (m := StateM World) ps w).2) := by
      show (ite (w.disk.isDirectory w.base p = true) _ _ : StateM World (List Path)) w = _
      rw [World.filesOf]
      split <;> rfl
    rw [hcons, ih]
    rfl

theorem outcome_read (p : Path) (w : World) :
    outcome (attempt (.notRead p) (Storage.read p)) w =
      match w.disk.read w.base p with
      | .error e => (.error (.notRead p e), w)
      | .ok text => (.ok text, w) := by
  rw [outcome_attempt]
  show (Except.mapError _ (w.disk.read w.base p), w) = _
  cases w.disk.read w.base p <;> rfl

theorem outcome_convertFile (p : Path) (w : World) :
    outcome (convertFile p) w = (w.page p, w) := by
  rw [convertFile, outcome_bind, outcome_read, World.page]
  rcases w.disk.read w.base p with e | text
  · rfl
  · dsimp only
    rcases convert text with e | page <;> rfl

/-- The pages of several files, as far as the first that has none. -/
theorem outcome_mapM_convertFile (files : List Path) (w : World) :
    outcome (files.mapM convertFile) w = (files.mapM w.page, w) := by
  induction files with
  | nil => rfl
  | cons p ps ih =>
    rw [List.mapM_cons, List.mapM_cons, outcome_bind, outcome_convertFile]
    rcases w.page p with e | page
    · rfl
    · show outcome (List.mapM convertFile ps >>= fun pages => pure (page :: pages)) w = _
      rw [outcome_bind, ih]
      rcases List.mapM w.page ps with e | pages <;> rfl

theorem World.page_eq_ok {w : World} {p : Path} {page : String} :
    w.page p = .ok page ↔
      ∃ text, w.disk.read w.base p = .ok text ∧ convert text = .ok page := by
  unfold World.page
  cases w.disk.read w.base p with
  | error cause => simp
  | ok text => cases hc : convert text <;> simp [hc]

/-! ## A page into its file

A delivery looks for its target before it takes its page, and the page may take something with it:
for a joined output, the making of the directories above.  So the disk that is written to need not
be the disk that was looked at, and `outcome_deliver` names both. -/

theorem outcome_report (o : Options) (n : Notice) (w : World) :
    outcome (liftM (o.report (m := StateM World) n)) w = (.ok (), w.report o n) := by
  rw [outcome_lift, Options.report, World.report]
  split <;> rfl

theorem outcome_write (target : Path) (text : String) (w : World) :
    outcome (attempt (.notWritten target) (Storage.write target text)) w =
      match w.disk.write w.base target text with
      | .error e => (.error (.notWritten target e), w)
      | .ok d => (.ok (), { w with disk := d }) := by
  rw [outcome_attempt]
  show (Except.mapError _ (World.change (·.write · target text) w).1,
    (World.change (·.write · target text) w).2) = _
  unfold World.change
  dsimp only
  rcases w.disk.write w.base target text with e | d <;> rfl

/-- **A page into a file**, case by case: what a dry run tells, what is left alone, and the write
behind all that the page takes. -/
theorem outcome_deliver (o : Options) (target : Path) (joined? : Option Nat)
    (page : ExceptT RunError (StateM World) String) (w : World) :
    outcome (deliver o target joined? page) w =
      if o.dryRun then (.ok (), w.say (.wouldWrite target joined?))
      else if w.disk.isPresent w.base target && !o.force then
        (.ok (), w.report o (.skipped target))
      else
        match outcome page w with
        | (.error e, w') => (.error e, w')
        | (.ok text, w') =>
          match w'.disk.write w'.base target text with
          | .error e => (.error (.notWritten target e), w')
          | .ok d => (.ok (), { w' with disk := d }.report o (.wrote target joined?)) := by
  have hpresent : outcome (liftM (Storage.isPresent (m := StateM World) target)) w =
      (.ok (w.disk.isPresent w.base target), w) := rfl
  unfold deliver
  split
  · rfl
  · rw [outcome_bind, hpresent]
    dsimp only
    split
    · exact outcome_report _ _ _
    · rw [outcome_bind]
      rcases outcome page w with ⟨e | text, w'⟩
      · rfl
      · dsimp only
        rw [outcome_bind, outcome_write]
        rcases w'.disk.write w'.base target text with e | d
        · rfl
        · exact outcome_report _ _ _

/-- **A delivery that goes well**, and is not only told of, finds something there and leaves it, or
writes behind all that the page takes. -/
theorem of_outcome_deliver_eq_ok {o : Options} (hdry : o.dryRun = false) {target : Path}
    {joined? : Option Nat} {page : ExceptT RunError (StateM World) String} {w w' : World}
    (h : outcome (deliver o target joined? page) w = (.ok (), w')) :
    w.disk.isPresent w.base target ∧ o.force = false ∧ w' = w.report o (.skipped target) ∨
      (o.force = true ∨ w.disk.isPresent w.base target = false) ∧
        ∃ text mid d, outcome page w = (.ok text, mid) ∧
          mid.disk.write mid.base target text = .ok d ∧
          w' = World.report { mid with disk := d } o (.wrote target joined?) := by
  rw [outcome_deliver, hdry, if_neg Bool.false_ne_true] at h
  split at h
  · next hskip =>
    rw [Bool.and_eq_true, Bool.not_eq_true'] at hskip
    exact .inl ⟨hskip.1, hskip.2, (Prod.mk.inj h).2.symm⟩
  · next hthrough =>
    have hfound : o.force = true ∨ w.disk.isPresent w.base target = false := by
      rw [Bool.and_eq_true, Bool.not_eq_true', not_and, Bool.not_eq_false] at hthrough
      cases hpresent : w.disk.isPresent w.base target with
      | false => exact .inr rfl
      | true => exact .inl (hthrough hpresent)
    split at h
    · simp at h
    · next text mid hpage =>
      split at h
      · simp at h
      · next d hwrite => exact .inr ⟨hfound, text, mid, d, hpage, hwrite, (Prod.mk.inj h).2.symm⟩

/-- A delivery that fails does so at its page or at the write, and changes nothing beyond what the
page takes. -/
theorem of_outcome_deliver_eq_error {o : Options} {target : Path} {joined? : Option Nat}
    {page : ExceptT RunError (StateM World) String} {w w' : World} {e : RunError}
    (h : outcome (deliver o target joined? page) w = (.error e, w')) :
    outcome page w = (.error e, w') ∨
      ∃ text cause, outcome page w = (.ok text, w') ∧ e = .notWritten target cause := by
  rw [outcome_deliver] at h
  split at h
  · simp at h
  · split at h
    · simp at h
    · split at h
      · next hpage => exact .inl (hpage.trans (by simpa using h))
      · next text mid hpage =>
        split at h
        · next cause hwrite =>
          simp only [Prod.mk.injEq, Except.error.injEq] at h
          obtain ⟨rfl, rfl⟩ := h
          exact .inr ⟨text, cause, hpage, rfl⟩
        · simp at h

/-- **Pages that are joined into a file** wait for the directories above it. -/
theorem outcome_runJoined_of_path {o : Options} {target : Path} (hout : o.output = .path target)
    {files : List Path} {pages : List String} {w : World} (hpages : files.mapM w.page = .ok pages) :
    outcome (runJoined o files) w =
      outcome (deliver o target (some files.length) do
        attempt .notCreated (makeDirectories target.ancestors)
        return pageBreak.intercalate pages) w := by
  unfold runJoined
  rw [outcome_bind, outcome_mapM_convertFile, hpages, hout]

/-- Joined pages go well only where all files have pages. -/
theorem exists_pages_of_outcome_runJoined_eq_ok {o : Options} {files : List Path} {w w' : World}
    (h : outcome (runJoined o files) w = (.ok (), w')) :
    ∃ pages, files.mapM w.page = .ok pages := by
  unfold runJoined at h
  rw [outcome_bind_eq_ok, outcome_mapM_convertFile] at h
  obtain ⟨pages, mid, hpages, -⟩ := h
  exact ⟨pages, (Prod.mk.inj hpages).1⟩

/-- **The page of one file into a directory.** -/
theorem outcome_runInto (o : Options) (directory file : Path) (w : World) :
    outcome (runInto o directory file) w =
      match file.stem? with
      | none => (.error .noStem, w)
      | some stem =>
        outcome (deliver o (directory.join (stem ++ ".md")) none (convertFile file)) w := by
  unfold runInto
  cases file.stem? <;> rfl

/-- **What a file that goes well has done**: its entry was there and is left alone, or its page has
been written. -/
theorem of_outcome_runInto_eq_ok {o : Options} (hdry : o.dryRun = false) {directory file : Path}
    {w w' : World} (h : outcome (runInto o directory file) w = (.ok (), w')) :
    ∃ stem, file.stem? = some stem ∧
      let target := directory.join (stem ++ ".md")
      (w.disk.isPresent w.base target ∧ o.force = false ∧ w' = w.report o (.skipped target) ∨
        (o.force = true ∨ w.disk.isPresent w.base target = false) ∧
          ∃ page d, w.page file = .ok page ∧ w.disk.write w.base target page = .ok d ∧
            w' = World.report { w with disk := d } o (.wrote target none)) := by
  rw [outcome_runInto] at h
  split at h
  · exact absurd (congrArg Prod.fst h) nofun
  · next stem hstem =>
    refine ⟨stem, hstem, ?_⟩
    refine (of_outcome_deliver_eq_ok hdry h).imp_right ?_
    rintro ⟨hfound, page, mid, d, hpage, hwrite, hw'⟩
    rw [outcome_convertFile] at hpage
    obtain ⟨hconvert, rfl⟩ := Prod.mk.inj hpage
    exact ⟨hfound, page, d, hconvert, hwrite, hw'⟩

/-! ## What deliveries spare

The three ways of a conversion change the world by deliveries only, apart from what they print.  A
view that deliveries spare is kept by all of them, for whatever reason they spare it: because it
sees no disk, because the run is dry, or because it is quiet. -/

/-- **A view of the world that deliveries spare**: it sees neither what a dry run says nor, in any
other run, what is written and reported. -/
structure Options.Spares {γ : Type} (o : Options) (view : World → γ) : Prop where
  say : o.dryRun = true → ∀ w n, view (w.say n) = view w
  report : o.dryRun = false → ∀ w n, view (w.report o n) = view w
  disk : o.dryRun = false → ∀ w d, view { w with disk := d } = view w

theorem Options.spares_stage (o : Options) : o.Spares World.stage where
  say _ _ _ := rfl
  report _ w n := World.stage_report w o n
  disk _ _ _ := rfl

section Spares

variable {γ : Type} {o : Options} {view : World → γ} (h : o.Spares view)

include h

theorem keeps_deliver (target : Path) (joined? : Option Nat)
    {page : ExceptT RunError (StateM World) String} (hpage : o.dryRun = false → Keeps view page) :
    Keeps view (deliver o target joined? page) := by
  intro w
  rw [outcome_deliver]
  cases hdry : o.dryRun with
  | true => exact h.say hdry w _
  | false =>
    rw [if_neg Bool.false_ne_true]
    have hw := hpage hdry w
    split
    · exact h.report hdry w _
    · generalize outcome page w = result at hw ⊢
      rcases result with ⟨e | text, w'⟩
      · exact hw
      · dsimp only
        split
        · exact hw
        · exact (h.report hdry _ _).trans ((h.disk hdry _ _).trans hw)

theorem keeps_runInto (directory file : Path) : Keeps view (runInto o directory file) := by
  intro w
  rw [outcome_runInto]
  split
  · rfl
  · exact keeps_deliver h _ _ (fun _ => keeps_of_outcome_eq (outcome_convertFile file)) w

end Spares

/-! ## Making directories

A directory is tried first.  Only if there is nothing for it to lie in, those above it are made, and
then it is tried again; a failure does not count where the directory is there all the same
(`World.settle`).  What a run makes is thus made in steps of one directory
(`makeDirectories_induction`). -/

/-- The world with a directory made, which is settled where the directory is there. -/
def World.settle (w : World) (p : Path) : Except FileError Unit × World :=
  match w.disk.makeDirectory w.base p with
  | .ok d => (.ok (), { w with disk := d })
  | .error e => (if w.disk.isDirectory w.base p then .ok () else .error e, w)

/-- **A directory and those above it**: those above it come first if they are missing. -/
theorem makeDirectories_cons (p : Path) (above : List Path) (w : World) :
    makeDirectories (m := StateM World) (p :: above) w =
      match w.disk.makeDirectory w.base p with
      | .error .notFound =>
        match makeDirectories (m := StateM World) above w with
        | (.error e, w') => (.error e, w')
        | (.ok (), w') => w'.settle p
      | _ => w.settle p := by
  have hbind : ∀ {α β : Type} (x : StateM World α) (f : α → StateM World β) (w : World),
      (x >>= f) w = f (x w).1 (x w).2 := fun _ _ _ => rfl
  have hmake : ∀ w : World, Storage.makeDirectory (m := StateM World) p w =
      match w.disk.makeDirectory w.base p with
      | .ok d => (.ok (), { w with disk := d })
      | .error e => (.error e, w) := fun _ => rfl
  have hsettled : ∀ w : World,
      (Storage.makeDirectory (m := StateM World) p >>= makeDirectories.settled p) w =
        w.settle p := by
    intro w
    rw [hbind, hmake, World.settle]
    rcases w.disk.makeDirectory w.base p with e | d <;> rfl
  rw [makeDirectories, hbind, hmake]
  cases hone : w.disk.makeDirectory w.base p with
  | ok d => rw [World.settle, hone]; rfl
  | error cause =>
    cases cause with
    | notFound =>
      dsimp only
      rw [hbind]
      rcases makeDirectories (m := StateM World) above w with ⟨e | ⟨⟩, w'⟩
      · rfl
      · exact hsettled w'
    | _ => rw [World.settle, hone]; rfl

/-- Making a directory changes the disk only. -/
theorem World.settle_snd (w : World) (p : Path) :
    (w.settle p).2 = { w with disk := (w.settle p).2.disk } := by
  unfold settle
  split <;> rfl

/-- **Making directories changes the disk only.** -/
theorem makeDirectories_snd (ps : List Path) (w : World) :
    (makeDirectories (m := StateM World) ps w).2
      = { w with disk := (makeDirectories (m := StateM World) ps w).2.disk } := by
  induction ps with
  | nil => rfl
  | cons p above ih =>
    rw [makeDirectories_cons]
    split
    · generalize makeDirectories (m := StateM World) above w = result at ih ⊢
      rcases result with ⟨e | ⟨⟩, mid⟩
      · exact ih
      · obtain ⟨d, base, output, notices⟩ := mid
        simp only [World.mk.injEq, true_and] at ih
        obtain ⟨rfl, rfl, rfl⟩ := ih
        exact World.settle_snd _ p
    · exact World.settle_snd _ _

/-- **What holds of the disk holds behind the making of directories**, if it does behind each. -/
theorem makeDirectories_induction {P : Disk → Prop} {ps : List Path} {w : World}
    (hmake : ∀ p ∈ ps, ∀ d e, P d → d.makeDirectory w.base p = .ok e → P e) (h : P w.disk) :
    P (makeDirectories (m := StateM World) ps w).2.disk := by
  have hsettle : ∀ p ∈ ps, ∀ mid : World, mid.base = w.base → P mid.disk →
      P (mid.settle p).2.disk := by
    intro p hp mid hbase hmid
    unfold World.settle
    split
    · next d hd => exact hmake p hp _ d hmid (hbase ▸ hd)
    · exact hmid
  clear hmake
  induction ps with
  | nil => exact h
  | cons p above ih =>
    have hp := hsettle p List.mem_cons_self
    have habove := ih fun q hq => hsettle q (List.mem_cons_of_mem p hq)
    have hbase := congrArg World.base (makeDirectories_snd above w)
    rw [makeDirectories_cons]
    split
    · generalize makeDirectories (m := StateM World) above w = result at habove hbase ⊢
      rcases result with ⟨e | ⟨⟩, mid⟩
      · exact habove
      · exact hp mid hbase habove
    · exact hp w rfl h

theorem stage_makeDirectories (ps : List Path) (w : World) :
    (makeDirectories (m := StateM World) ps w).2.stage = w.stage := by
  rw [makeDirectories_snd]
  rfl

theorem outcome_prepareDirectory (directory : Path) (w : World) :
    outcome (prepareDirectory directory) w =
      ((makeDirectories (m := StateM World) directory.directories w).1.mapError .notCreated,
        (makeDirectories (m := StateM World) directory.directories w).2) := rfl

theorem outcome_runEach {o : Options} (hdry : o.dryRun = false) (directory : Path)
    (files : List Path) (w : World) :
    outcome (runEach o directory files) w =
      outcome (prepareDirectory directory >>= fun _ => files.forM (runInto o directory)) w := by
  unfold runEach
  rw [hdry]
  rfl

/-- A dry run makes no directory. -/
theorem outcome_runEach_of_dryRun {o : Options} (hdry : o.dryRun = true) (directory : Path)
    (files : List Path) (w : World) :
    outcome (runEach o directory files) w = outcome (files.forM (runInto o directory)) w := by
  unfold runEach
  rw [hdry]
  rfl

section Spares

variable {γ : Type} {o : Options} {view : World → γ} (h : o.Spares view)

include h

theorem keeps_makeDirectories (hdry : o.dryRun = false) (error : FileError → RunError)
    (ps : List Path) : Keeps view (attempt error (makeDirectories ps)) := by
  intro w
  rw [outcome_attempt, makeDirectories_snd]
  exact h.disk hdry w _

theorem keeps_runEach (directory : Path) (files : List Path) :
    Keeps view (runEach o directory files) := by
  have hloop : Keeps view (files.forM (runInto o directory)) :=
    .forM (fun file => keeps_runInto h directory file) files
  intro w
  cases hdry : o.dryRun with
  | true =>
    rw [outcome_runEach_of_dryRun hdry]
    exact hloop w
  | false =>
    rw [outcome_runEach hdry]
    exact Keeps.bind (keeps_makeDirectories h hdry _ _) (fun _ => hloop) w

end Spares

/-! ## The whole

The options and the number of files choose the way that a conversion takes.  The choice is looked at
here, once: later proofs begin with the way itself, by `outcome_run_of_path` and its like. -/

/-- **A conversion**, by the way that it takes. -/
theorem outcome_run (o : Options) (w : World) :
    outcome o.run w =
      if w.files o.inputs = [] then (.error .noInput, w)
      else if o.concat then outcome (runJoined o (w.files o.inputs)) w
      else
        match o.output, w.files o.inputs with
        | .standard, [file] => outcome (runSingle o file) w
        | .standard, _ => (.error .severalToOutput, w)
        | .path directory, files => outcome (runEach o directory files) w := by
  have hgather : outcome (liftM (gather (m := StateM World) o.inputs)) w =
      (.ok (w.files o.inputs), w) := by
    rw [outcome_lift, gather_eq]
  unfold Options.run
  rw [outcome_bind, hgather]
  dsimp only
  split
  · rfl
  · split
    · rfl
    · cases o.output with
      | path directory => rfl
      | standard => rcases w.files o.inputs with _ | ⟨file, _ | ⟨other, others⟩⟩ <;> rfl

theorem outcome_run_of_concat {o : Options} {w : World} (hfiles : w.files o.inputs ≠ [])
    (hconcat : o.concat = true) :
    outcome o.run w = outcome (runJoined o (w.files o.inputs)) w := by
  rw [outcome_run, if_neg hfiles, hconcat, if_pos rfl]

/-- **One file without a place to go to** goes to the standard output. -/
theorem outcome_run_of_single {o : Options} {w : World} {file : Path}
    (hfile : w.files o.inputs = [file]) (hconcat : o.concat = false)
    (hout : o.output = .standard) : outcome o.run w = outcome (runSingle o file) w := by
  rw [outcome_run, hfile, if_neg (List.cons_ne_nil _ _), hconcat, hout]
  rfl

/-- **Several files do not go to the standard output** unless they are joined. -/
theorem outcome_run_of_several {o : Options} {w : World}
    (hseveral : 1 < (w.files o.inputs).length) (hconcat : o.concat = false)
    (hout : o.output = .standard) : outcome o.run w = (.error .severalToOutput, w) := by
  rw [outcome_run, hconcat, hout]
  rcases hfiles : w.files o.inputs with _ | ⟨file, _ | ⟨other, others⟩⟩ <;> rw [hfiles] at hseveral
  · exact absurd hseveral (Nat.not_lt_zero 1)
  · exact absurd hseveral (Nat.lt_irrefl 1)
  · rfl

/-- A conversion with an output file or directory takes one of two ways, if there is any input. -/
theorem outcome_run_of_path {o : Options} {target : Path} (hout : o.output = .path target)
    (w : World) :
    outcome o.run w = (.error .noInput, w) ∨
      o.concat = true ∧ outcome o.run w = outcome (runJoined o (w.files o.inputs)) w ∨
      o.concat = false ∧ outcome o.run w = outcome (runEach o target (w.files o.inputs)) w := by
  rw [outcome_run, hout]
  split
  · exact .inl rfl
  · cases hconcat : o.concat with
    | true => exact .inr (.inl ⟨rfl, rfl⟩)
    | false => exact .inr (.inr ⟨rfl, rfl⟩)

theorem of_outcome_run_of_path_eq_ok {o : Options} {target : Path} (hout : o.output = .path target)
    {w w' : World} (h : outcome o.run w = (.ok (), w')) :
    o.concat = true ∧ outcome (runJoined o (w.files o.inputs)) w = (.ok (), w') ∨
      o.concat = false ∧ outcome (runEach o target (w.files o.inputs)) w = (.ok (), w') := by
  obtain hrun | ⟨hconcat, hrun⟩ | ⟨hconcat, hrun⟩ := outcome_run_of_path hout w
  · rw [hrun] at h
    exact absurd (congrArg Prod.fst h) nofun
  · exact .inl ⟨hconcat, hrun ▸ h⟩
  · exact .inr ⟨hconcat, hrun ▸ h⟩

section Spares

variable {γ : Type} {o : Options} {view : World → γ}
  (hsay : o.dryRun = true → ∀ w n, view (w.say n) = view w)
  (hprint : o.dryRun = false → o.output = .standard → ∀ w text,
    view { w with output := text } = view w)

include hsay hprint

theorem keeps_runSingle (hout : o.output = .standard) (file : Path) :
    Keeps view (runSingle o file) := by
  intro w
  unfold runSingle
  cases hdry : o.dryRun with
  | true => exact hsay hdry w _
  | false =>
    rw [if_neg Bool.false_ne_true, outcome_bind, outcome_convertFile]
    rcases w.page file with e | page
    · rfl
    · exact hprint hdry hout w _

variable (hspares : o.output ≠ .standard → o.Spares view)

include hspares

theorem keeps_runJoined (files : List Path) : Keeps view (runJoined o files) := by
  intro w
  unfold runJoined
  rw [outcome_bind, outcome_mapM_convertFile]
  rcases files.mapM w.page with e | pages
  · rfl
  · dsimp only
    split
    · next hout =>
      cases hdry : o.dryRun with
      | true => exact hsay hdry w _
      | false => exact hprint hdry hout w _
    · next target hout =>
      have hview := hspares (by simp [hout])
      exact keeps_deliver hview target _
        (fun hdry => .bind (keeps_makeDirectories hview hdry _ _) fun _ _ => rfl) w

/-- **A conversion keeps a view** that sees nothing of what it says, prints or delivers. -/
theorem keeps_run : Keeps view o.run := by
  intro w
  rw [outcome_run]
  split
  · rfl
  · split
    · exact keeps_runJoined hsay hprint hspares _ w
    · split
      · next hout _ => exact keeps_runSingle hsay hprint hout _ w
      · rfl
      · next hout => exact keeps_runEach (hspares (by simp [hout])) _ _ w

end Spares

theorem runArguments_of_convert {arguments : List String} {o : Options}
    (h : Command.ofArguments arguments = .ok (.convert o)) (w : World) :
    outcome (runArguments arguments) w = outcome o.run w := by
  unfold runArguments
  rw [h]
  rfl

/-- **A command line, done and reported.** -/
theorem execute_eq (arguments : List String) (w : World) :
    execute (m := StateM World) arguments w =
      match outcome (runArguments arguments) w with
      | (.ok (), left) => (0, left)
      | (.error e, left) => (1, left.say (.failed e)) := by
  have hbind : ∀ {α β : Type} (x : StateM World α) (f : α → StateM World β),
      (x >>= f) w = f (x w).1 (x w).2 := fun _ _ => rfl
  unfold execute
  rw [hbind, outcome]
  rcases ExceptT.run (runArguments (m := StateM World) arguments) w with ⟨e | ⟨⟩, left⟩ <;> rfl

theorem execute_of_outcome_run_ok {arguments : List String} {o : Options}
    (hcommand : Command.ofArguments arguments = .ok (.convert o)) {w w' : World}
    (h : outcome o.run w = (.ok (), w')) : execute (m := StateM World) arguments w = (0, w') := by
  rw [execute_eq, runArguments_of_convert hcommand, h]

theorem execute_of_outcome_run_error {arguments : List String} {o : Options}
    (hcommand : Command.ofArguments arguments = .ok (.convert o)) {w w' : World} {e : RunError}
    (h : outcome o.run w = (.error e, w')) :
    execute (m := StateM World) arguments w = (1, w'.say (.failed e)) := by
  rw [execute_eq, runArguments_of_convert hcommand, h]

/-- A command that goes well exits with zero, and with nothing more to say. -/
theorem outcome_of_execute_eq_zero {arguments : List String} {w w' : World}
    (h : execute (m := StateM World) arguments w = (0, w')) :
    outcome (runArguments arguments) w = (.ok (), w') := by
  rw [execute_eq] at h
  rcases hout : outcome (runArguments arguments) w with ⟨e | ⟨⟩, left⟩
  · rw [hout] at h
    exact absurd (Prod.mk.inj h).1 nofun
  · rw [hout] at h
    rw [(Prod.mk.inj h).2]

end DocMarkdown
