import DocMarkdown.Command.Notice

/-!
# Command/World — what a command needs of the world around it

A command looks at files, writes files, and says things: on its **output**, and in **notices** about
its progress.  `Storage` names these powers, so that a command is written once and runs in any monad
that has them.  A `World` is the plain value that has them: a disk, the directory that the command
works in, and what has been said.
-/

namespace DocMarkdown

/-- **The powers of a command.** -/
class Storage (m : Type → Type) where
  /-- A path leads to something. -/
  isPresent : Path → m Bool
  /-- A path leads to a directory. -/
  isDirectory : Path → m Bool
  /-- A directory and all that lies in it, before its content and by name. -/
  listing : Path → m (List Path)
  /-- The text of a file. -/
  read : Path → m (Except FileError String)
  /-- A text into a file, made or overwritten. -/
  write : Path → String → m (Except FileError Unit)
  /-- A new directory. -/
  makeDirectory : Path → m (Except FileError Unit)
  /-- Text to the output. -/
  print : String → m Unit
  /-- One more notice. -/
  notify : Notice → m Unit

/-! ## The plain world

Here an operation does what the disk allows and fails for no other reason, and a change that fails
leaves the world as it is. -/

/-- **A disk, and what has been said.** -/
structure World where
  disk : Disk
  /-- The directory that the command works in. -/
  base : Place
  output : String
  notices : List Notice

namespace World

/-- Work in a directory of a disk, with nothing said yet. -/
def ofDisk (d : Disk) (base : Place) : World := ⟨d, base, "", []⟩

/-- The lines of the notices. -/
def noticeText (w : World) : String :=
  String.join (w.notices.map fun n => n.text ++ "\n")

/-- The world after a change of its disk, or as it is where the change fails. -/
def change (f : Disk → Place → Except FileError Disk) :
    StateM World (Except FileError Unit) := fun w =>
  match f w.disk w.base with
  | .ok d => (.ok (), { w with disk := d })
  | .error e => (.error e, w)

end World

instance : Storage (StateM World) where
  isPresent p := fun w => (w.disk.isPresent w.base p, w)
  isDirectory p := fun w => (w.disk.isDirectory w.base p, w)
  listing p := fun w => (w.disk.listing w.base p, w)
  read p := fun w => (w.disk.read w.base p, w)
  write p text := World.change (·.write · p text)
  makeDirectory p := World.change (·.makeDirectory · p)
  print text := fun w => ((), { w with output := w.output ++ text })
  notify n := fun w => ((), { w with notices := w.notices ++ [n] })

end DocMarkdown
