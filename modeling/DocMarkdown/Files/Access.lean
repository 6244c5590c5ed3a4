import DocMarkdown.Files.Disk
import DocMarkdown.Files.Path

/-!
# Files/Access — the disk through its paths

Programs name entries by paths.  A path is followed segment by segment, from the root of the disk if
it is absolute and from a **base** otherwise, which is the directory that one works in.  Every
segment is taken from a directory, so a slash behind the name of a file leads nowhere; one level up
from the root is the root.  Reading and writing fail for the few reasons of `FileError`, and a
failing operation changes nothing.
-/

namespace DocMarkdown

/-! ## Errors -/

/-- **Why an operation on files fails.** -/
inductive FileError where
  | notFound
  | alreadyExists
  | notADirectory
  | isADirectory
  /-- The bytes of the file are no UTF-8. -/
  | notText
  /-- Anything that a disk by itself has no cause for, in the words of the system. -/
  | system (words : String)
deriving DecidableEq, Repr

/-! ## Following a path

Every segment is a step, also one that stays where it is, and every step is made from a directory.
A path is followed on the disk as it is, so `missing/..` leads nowhere. -/

/-- Where a path starts. -/
def Path.start (base : Place) (p : Path) : Place :=
  if p.isAbsolute then [] else base

namespace Disk

/-- One segment further from a place. -/
def follow (d : Disk) (place : Place) (segment : String) : Except FileError Place :=
  if d.find? place ≠ some .directory then .error .notADirectory
  else if segment = "" ∨ segment = "." then .ok place
  else if segment = ".." then .ok place.dropLast
  else if (d.find? (place ++ [segment])).isSome then .ok (place ++ [segment])
  else .error .notFound

/-- **The place that a path leads to.** -/
def resolve (d : Disk) (base : Place) (p : Path) : Except FileError Place :=
  if p.text = "" then .error .notFound else p.segments.foldlM d.follow (p.start base)

/-- What a path leads to. -/
def lookup (d : Disk) (base : Place) (p : Path) : Except FileError Entry := do
  match d.find? (← d.resolve base p) with
  | some e => return e
  | none => throw .notFound

/-- A path leads to something. -/
def isPresent (d : Disk) (base : Place) (p : Path) : Bool :=
  (d.lookup base p).isOk

/-- A path leads to a directory. -/
def isDirectory (d : Disk) (base : Place) (p : Path) : Bool :=
  match d.lookup base p with
  | .ok .directory => true
  | _ => false

/-! ## Reading -/

/-- **The text of a file.** -/
def read (d : Disk) (base : Place) (p : Path) : Except FileError String := do
  match ← d.lookup base p with
  | .directory => throw .isADirectory
  | .file content =>
    match String.fromUTF8? content with
    | some text => return text
    | none => throw .notText

/-- **A directory and all that lies in it**, as paths that start with the given one: every directory
before its content, and siblings by name. -/
def listing (d : Disk) (base : Place) (p : Path) : List Path :=
  match d.resolve base p with
  | .ok place => (d.below place).map p.joinAll
  | .error _ => []

/-! ## Writing

Both changes part a path into the last segment that is not empty, which is to be the name of the
entry, and those that lead to its directory.  A slash behind the name asks for a directory, so no
file is written there. -/

/-- **Where a path puts a new entry**: what stands before its last segment, that segment, and
whether slashes stand behind it. -/
structure Target where
  front : List String
  last : String
  slashed : Bool
deriving DecidableEq, Repr

/-- The target of a path that names one. -/
def Target.of? (p : Path) : Option Target :=
  let backwards := p.segments.reverse
  match backwards.dropWhile (· = "") with
  | [] => none
  | last :: front => some ⟨front.reverse, last, backwards.head? = some ""⟩

/-- The name that a target has, if it is one of an entry: the dots are steps. -/
def Target.name? (t : Target) : Option String :=
  if t.last = "." ∨ t.last = ".." then none else some t.last

/-- The directory that a target lies in, followed from where its path starts. -/
def Target.directory (t : Target) (d : Disk) (start : Place) :
    Except FileError { place : Place // d.find? place = some .directory } := do
  let place ← t.front.foldlM d.follow start
  if h : d.find? place = some .directory then return ⟨place, h⟩ else throw .notADirectory

/-- **The disk with a new directory**, which nothing may stand in the place of. -/
def makeDirectory (d : Disk) (base : Place) (p : Path) : Except FileError Disk := do
  if p.text = "" then throw .notFound
  match Target.of? p with
  | none => throw .alreadyExists
  | some t =>
    let ⟨place, hdir⟩ ← t.directory d (p.start base)
    match t.name? with
    | none => throw .alreadyExists
    | some name =>
      if hfree : d.find? (place ++ [name]) = none then
        return d.put place name .directory hdir (by simp [hfree])
      else throw .alreadyExists

/-- **The disk with bytes in a file**, which is made or overwritten. -/
def store (d : Disk) (base : Place) (p : Path) (content : ByteArray) : Except FileError Disk := do
  if p.text = "" then throw .notFound
  match Target.of? p with
  | none => throw .isADirectory
  | some t =>
    let ⟨place, hdir⟩ ← t.directory d (p.start base)
    match t.name? with
    | none => throw .isADirectory
    | some name =>
      if t.slashed then throw .isADirectory
      else if hfree : d.find? (place ++ [name]) ≠ some .directory then
        return d.put place name (.file content) hdir hfree
      else throw .isADirectory

/-- The disk with a text in a file. -/
def write (d : Disk) (base : Place) (p : Path) (text : String) : Except FileError Disk :=
  d.store base p text.toUTF8

end Disk

end DocMarkdown
