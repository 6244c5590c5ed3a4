import DocMarkdown.Command.Execute

/-!
# Main — the command on the files of the system

The powers of a command (`Storage`) on the real file system, and `main`.
-/

namespace DocMarkdown

/-! ## Files of the system -/

/-- A path, for the operations of the system. -/
def Path.located (p : Path) : IO.FS.DirEntry :=
  { root := p.text, fileName := "" }

/-- What an error of the system is to a command.  A directory in the place of a file is told before
the system is asked, so the wrong type is that of a file in the place of a directory. -/
def FileError.ofSystem (e : IO.Error) : FileError :=
  match e with
  | .noFileOrDirectory _ _ _ => .notFound
  | .noSuchThing _ _ _ => .notFound
  | .alreadyExists _ _ _ => .alreadyExists
  | .inappropriateType _ _ _ => .notADirectory
  | e => .system (toString e)

/-- An operation of the system, with its error as a value. -/
def tried {α : Type} (operation : IO α) : IO (Except FileError α) := do
  match ← operation.toBaseIO with
  | .ok a => return .ok a
  | .error e => return .error (FileError.ofSystem e)

/-- A directory and all that lies in it. -/
partial def listingOf (p : Path) : IO (List Path) := do
  if ← p.located.root.isDir then
    let names := (← p.located.root.readDir).map (·.fileName)
    let below ← (names.toList.mergeSort (· ≤ ·)).mapM fun name => listingOf (p.join name)
    return p :: below.flatten
  else return [p]

instance : Storage IO where
  isPresent p := p.located.root.pathExists
  isDirectory p := p.located.root.isDir
  listing := listingOf
  read p := do
    if ← p.located.root.isDir then return .error .isADirectory
    match ← tried (IO.FS.readBinFile p.text) with
    | .error e => return .error e
    | .ok content =>
      match String.fromUTF8? content with
      | some text => return .ok text
      | none => return .error .notText
  write p text := do
    if ← p.located.root.isDir then return .error .isADirectory
    tried (IO.FS.writeFile p.text text)
  makeDirectory p := tried (IO.FS.createDir p.text)
  print text := do (← IO.getStdout).putStr text
  notify n := do (← IO.getStderr).putStrLn n.text

end DocMarkdown

/-- **The command.** -/
def main (arguments : List String) : IO UInt32 := do
  return (← DocMarkdown.execute arguments).toUInt32
