/-!
# Files/Path — paths as they are written

A **path** is a text whose parts stand between slashes.  It is kept as it was written, since
messages show it that way, and it is read in two ways: as **segments**, of which the file system
takes every one, and as **components**, which leave out what names no step — doubled slashes and
dots that do not stand first.
-/

namespace DocMarkdown

/-- **A path**, as it is written. -/
structure Path where
  text : String
deriving DecidableEq, Repr

namespace Path

/-! ## Segments and components -/

/-- The pieces between the slashes. -/
def segments (p : Path) : List String :=
  (p.text.toList.splitOn '/').map String.ofList

/-- The path that has these segments. -/
def ofSegments (segments : List String) : Path :=
  ⟨"/".intercalate segments⟩

/-- **A step of a path.** -/
inductive Component where
  /-- From the root of the file system. -/
  | root
  /-- From where one is; only as the first step. -/
  | here
  /-- One level up. -/
  | up
  /-- To an entry with this name. -/
  | name (name : String)
deriving DecidableEq, Repr

/-- The step that a segment behind the first one names, if it names one. -/
def Component.ofInner? (segment : String) : Option Component :=
  if segment = "" ∨ segment = "." then none
  else if segment = ".." then some up
  else some (name segment)

/-- The step that the first segment names; an empty one is the root if others follow it. -/
def Component.ofFirst? (segment : String) (others : List String) : Option Component :=
  if segment = "" then (if others = [] then none else some root)
  else if segment = "." then some here
  else ofInner? segment

/-- **The steps of a path.** -/
def components (p : Path) : List Component :=
  match p.segments with
  | [] => []
  | first :: others =>
    (Component.ofFirst? first others).toList ++ others.filterMap Component.ofInner?

/-- A path from the root of the file system: a slash stands first. -/
def isAbsolute (p : Path) : Bool :=
  p.text.toList.head? == some '/'

/-! ## Names

The extension begins at the last dot, but a dot that stands first begins none, so `.xml` is all
stem. -/

/-- The name of the file: the last step, if it is one to a name. -/
def fileName? (p : Path) : Option String :=
  match p.components.getLast? with
  | some (.name name) => some name
  | _ => none

/-- A name as the parts before and behind its last dot.  A name whose only dot stands first has no
such parts. -/
def dotted? (name : List Char) : Option (List Char × List Char) :=
  let behind := name.reverse.takeWhile (· ≠ '.')
  match name.reverse.dropWhile (· ≠ '.') with
  | [] => none
  | [_] => none
  | _ :: before => some (before.reverse, behind.reverse)

/-- **The stem of a path**: the name of its file without the extension. -/
def stem? (p : Path) : Option String :=
  p.fileName?.map fun name =>
    match dotted? name.toList with
    | some (before, _) => String.ofList before
    | none => name

/-- **The extension of a path**: what stands behind the last dot of the name of its file. -/
def extension? (p : Path) : Option String :=
  p.fileName?.bind fun name => (dotted? name.toList).map fun parts => String.ofList parts.2

/-! ## Joins and ancestors -/

/-- The path of an entry in the directory that `p` names. -/
def join (p : Path) (name : String) : Path :=
  if p.text = "" ∨ p.text.toList.getLast? = some '/' then ⟨p.text ++ name⟩
  else ⟨p.text ++ "/" ++ name⟩

/-- The path of an entry some levels below `p`. -/
def joinAll (p : Path) (names : List String) : Path :=
  names.foldl join p

/-- Paths to which the given segments lead, taken from the last one, each one step shorter than the
one before.  A segment that names no step makes no path of its own. -/
def prefixesOf : List String → List (List String)
  | [] => []
  | segment :: front =>
    if segment = "" ∨ (segment = "." ∧ front ≠ []) then prefixesOf front
    else (segment :: front).reverse :: prefixesOf front

/-- **The directories above an entry**, the nearest first, as far as the path names them. -/
def ancestors (p : Path) : List Path :=
  (prefixesOf p.segments.reverse).tail.map ofSegments

end Path

end DocMarkdown
