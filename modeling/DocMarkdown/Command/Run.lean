import DocMarkdown.Command.World

/-!
# Command/Run — what a conversion does

A conversion gathers its input files first and then takes one of three ways: all pages joined into
one output, one page to the standard output, or one page for each file into a directory.  A page is
written only when all that goes into it has been converted; what exists is left alone unless it is
to be overwritten; and a dry run stops short of every write.  Progress goes to the notices.
-/

namespace DocMarkdown

/-! ## Steps -/

variable {m : Type → Type} [Monad m] [Storage m]

/-- An operation on files whose error has a place among the errors of a conversion. -/
def attempt {α : Type} (error : FileError → RunError) (operation : m (Except FileError α)) :
    ExceptT RunError m α :=
  ExceptT.mk (do return (← operation).mapError error)

/-- A notice of progress, unless the conversion is quiet. -/
def Options.report (o : Options) (n : Notice) : m Unit :=
  if o.quiet then pure () else Storage.notify n

/-- The extension of documentation files. -/
def Path.isDocumentation (p : Path) : Bool :=
  p.extension? == some "xml"

/-- **The files that inputs stand for**: a directory for the documentation files in it, anything
else for itself. -/
def gather : List Path → m (List Path)
  | [] => return []
  | p :: ps => do
    if ← Storage.isDirectory p then
      let found ← Storage.listing p
      return found.filter Path.isDocumentation ++ (← gather ps)
    else return p :: (← gather ps)

/-- The page of a file. -/
def convertFile (p : Path) : ExceptT RunError m String := do
  let text ← attempt (.notRead p) (Storage.read p)
  match convert text with
  | .ok page => return page
  | .error e => throw (.notConverted p e)

/-- **A directory, made with those above it where they are missing**: the given paths are the
directory and those above it, the nearest first. -/
def makeDirectories : List Path → m (Except FileError Unit)
  | [] => return .ok ()
  | p :: above => do
    match ← Storage.makeDirectory p with
    | .ok () => return .ok ()
    | .error .notFound =>
      match ← makeDirectories above with
      | .error e => return .error e
      | .ok () => settled p (← Storage.makeDirectory p)
    | .error e => settled p (.error e)
where
  /-- A failure to make a directory that is there does not count. -/
  settled (p : Path) : Except FileError Unit → m (Except FileError Unit)
    | .ok () => return .ok ()
    | .error e => return if ← Storage.isDirectory p then .ok () else .error e

/-! ## Into a file

Whether the target is there is asked first.  What the page takes is done only if the page is going
to be written, and a dry run does none of it. -/

/-- **A page into a file**: left alone if the file exists and is not to be overwritten, and
otherwise written once all that the page takes has been done.  A joined page tells how many it is
made of. -/
def deliver (o : Options) (target : Path) (joined? : Option Nat)
    (page : ExceptT RunError m String) : ExceptT RunError m Unit := do
  if o.dryRun then Storage.notify (m := m) (.wouldWrite target joined?)
  else if (← Storage.isPresent (m := m) target) && !o.force then
    o.report (m := m) (.skipped target)
  else
    let text ← page
    attempt (.notWritten target) (Storage.write target text)
    o.report (m := m) (.wrote target joined?)

/-! ## The three ways -/

/-- What stands between two pages of a joined output. -/
def pageBreak : String := "\n---\n\n"

/-- **All pages into one output.** -/
def runJoined (o : Options) (files : List Path) : ExceptT RunError m Unit := do
  let pages := pageBreak.intercalate (← files.mapM convertFile)
  match o.output with
  | .standard =>
    if o.dryRun then Storage.notify (m := m) (.wouldPrintJoined files.length)
    else Storage.print (m := m) (pages ++ "\n")
  | .path target => deliver o target (some files.length) do
    attempt .notCreated (makeDirectories target.ancestors)
    return pages

/-- **One page to the standard output.** -/
def runSingle (o : Options) (file : Path) : ExceptT RunError m Unit := do
  if o.dryRun then Storage.notify (m := m) (.wouldPrint file)
  else Storage.print (m := m) ((← convertFile file) ++ "\n")

/-- The page of one file into a directory. -/
def runInto (o : Options) (directory file : Path) : ExceptT RunError m Unit := do
  match file.stem? with
  | none => throw .noStem
  | some stem => deliver o (directory.join (stem ++ ".md")) none (convertFile file)

/-- The directory that pages go to; the empty path is where one is. -/
def prepareDirectory (directory : Path) : ExceptT RunError m Unit :=
  attempt .notCreated <|
    makeDirectories (if directory.text = "" then [] else directory :: directory.ancestors)

/-- **Each page into a directory.** -/
def runEach (o : Options) (directory : Path) (files : List Path) : ExceptT RunError m Unit := do
  if !o.dryRun then prepareDirectory directory
  files.forM (runInto o directory)

/-! ## The whole -/

/-- **A conversion.** -/
def Options.run (o : Options) : ExceptT RunError m Unit := do
  let files ← gather (m := m) o.inputs
  if files = [] then throw .noInput
  if o.concat then runJoined o files
  else
    match o.output, files with
    | .standard, [file] => runSingle o file
    | .standard, _ => throw .severalToOutput
    | .path directory, _ => runEach o directory files

end DocMarkdown
