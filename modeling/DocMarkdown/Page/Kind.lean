import DocMarkdown.Tree.Element

/-!
# Page/Kind — what an element of a documentation file is for

The **kind** of an element decides what it becomes on the page.  It goes by the element's name,
except for `member`: what a member documents is told by the first letter of its own `name`.
-/

namespace DocMarkdown

/-! ## What can be missing -/

/-- **Why an element cannot be laid out**: it lacks an attribute or a child that its kind needs. -/
inductive LayoutError where
  | missingAttribute (element key : String)
  | missingChild (parent child : String)
deriving DecidableEq, Repr

/-- The wording of an error. -/
def LayoutError.message : LayoutError → String
  | missingAttribute element key =>
    "<" ++ element ++ "> is missing required attribute `" ++ key ++ "`"
  | missingChild parent child =>
    "<" ++ parent ++ "> is missing required child <" ++ child ++ ">"

namespace Element

/-- The value of an attribute that the element needs. -/
def requireAttr (e : Element) (key : String) : Except LayoutError String :=
  match e.attr? key with
  | some value => .ok value
  | none => .error (.missingAttribute e.name key)

/-- The first child with a name that the element needs. -/
def requireChild (e : Element) (name : String) : Except LayoutError Element :=
  match e.child? name with
  | some child => .ok child
  | none => .error (.missingChild e.name name)

end Element

/-! ## Kinds -/

/-- **The kinds of element.** -/
inductive Kind where
  /-- The whole documentation of one assembly. -/
  | page
  /-- The documentation of a field. -/
  | field
  /-- The documentation of a method. -/
  | method
  /-- The documentation of an event. -/
  | event
  /-- What a member is, in short. -/
  | summary
  /-- What else is to be said of it. -/
  | remarks
  /-- Code that shows its use. -/
  | sample
  /-- A mention of another member. -/
  | link
  /-- What a parameter is for. -/
  | parameter
  /-- When an exception is thrown. -/
  | exception
  /-- What is returned. -/
  | returns
  /-- Anything else, which has no place on the page. -/
  | other
deriving DecidableEq, Repr

namespace Kind

/-- The kind of an element that is no `member`, by its name. -/
def ofName (name : String) : Kind :=
  match name with
  | "doc" => page
  | "field" => field
  | "method" => method
  | "event" => event
  | "summary" => summary
  | "remarks" => remarks
  | "example" => sample
  | "see" => link
  | "param" => parameter
  | "exception" => exception
  | "returns" => returns
  | _ => other

/-- The kind of a member, by the first letter of what it documents. -/
def ofMemberName (name : String) : Kind :=
  match name.toList.head? with
  | some 'F' => field
  | some 'M' => method
  | some 'E' => event
  | _ => other

/-- **The kind of an element**; a member without a name has none. -/
def of (e : Element) : Except LayoutError Kind :=
  if e.name = "member" then (e.requireAttr "name").map ofMemberName
  else .ok (ofName e.name)

end Kind

end DocMarkdown
