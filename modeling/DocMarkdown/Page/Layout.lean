import DocMarkdown.Page.Block
import DocMarkdown.Page.Kind
import DocMarkdown.Text.Blank
import DocMarkdown.Text.Indent

/-!
# Page/Layout — from the tree to the page

`Block.ofElement` lays an element out by its kind, and what it holds in turn; what an element itself
needs is asked for before anything within it.  The members of a whole documentation file are laid
out in three **groups**, each a pass over all members in their order.
-/

namespace DocMarkdown

/-! ## Groups -/

/-- **The groups of members**, in the order of the page. -/
inductive Group where
  | fields
  | methods
  | events
deriving DecidableEq, Repr

namespace Group

/-- What the names of a group's members begin with. -/
def mark : Group → String
  | fields => "F:"
  | methods => "M:"
  | events => "E:"

/-- A member with this name belongs to the group. -/
def holds (g : Group) (name : String) : Bool :=
  g.mark.toList.isPrefixOf name.toList

end Group

/-! ## Layout

A page goes through its members three times, once for each group, and so has them by group and then
in the order of the document. A name that is missing is an error in each of these passes, and is
told in the first. -/

mutual

/-- **The block of an element.** -/
def Block.ofElement : Element → Except LayoutError Block
  | ⟨tag, attributes, children⟩ => do
    let e : Element := ⟨tag, attributes, children⟩
    match ← Kind.of e with
    | .page =>
      let assembly ← e.requireChild "assembly"
      let title ← assembly.requireChild "name"
      let _ ← e.requireChild "members"
      let fields ← blocksOfMembers .fields children
      let methods ← blocksOfMembers .methods children
      let events ← blocksOfMembers .events children
      return .page title.value fields methods events
    | .field | .method | .event =>
      return .entry (← e.requireAttr "name") (← blocksOfNodes children)
    | .summary => return .summary (← blocksOfNodes children)
    | .remarks => return .remarks (← blocksOfNodes children)
    | .sample => return .sample (Text.dedent e.value)
    | .link => return .link (← e.requireAttr "cref") (← blocksOfNodes children)
    | .parameter => return .parameter (← e.requireAttr "name") (← blocksOfNodes children)
    | .exception => return .exception (← e.requireAttr "cref") (← blocksOfNodes children)
    | .returns => return .returns (← blocksOfNodes children)
    | .other => return .nothing

/-- **The block of a node**: running text has its blanks collapsed, and CDATA has no place outside
code samples. -/
def Block.ofNode : Node → Except LayoutError Block
  | .element e => Block.ofElement e
  | .text content => return .prose (Text.collapse content)
  | .cdata _ => return .nothing

/-- The blocks of nodes, in their order. -/
def blocksOfNodes : List Node → Except LayoutError (List Block)
  | [] => return []
  | n :: ns => return (← Block.ofNode n) :: (← blocksOfNodes ns)

/-- The blocks of a group, from the first `members` among the nodes. -/
def blocksOfMembers (g : Group) : List Node → Except LayoutError (List Block)
  | [] => return []
  | .element ⟨tag, _, children⟩ :: ns =>
    if tag = "members" then blocksOfGroup g children else blocksOfMembers g ns
  | _ :: ns => blocksOfMembers g ns

/-- **The blocks of a group**: of every `member` among the nodes that belongs to it.  A member
without a name belongs nowhere and is an error in every pass. -/
def blocksOfGroup (g : Group) : List Node → Except LayoutError (List Block)
  | [] => return []
  | .element m :: ns => do
    if m.name = "member" then
      if g.holds (← m.requireAttr "name") then
        return (← Block.ofElement m) :: (← blocksOfGroup g ns)
      else blocksOfGroup g ns
    else blocksOfGroup g ns
  | _ :: ns => blocksOfGroup g ns

end

/-! ## Rendering -/

/-- **The Markdown of an element.** -/
def Element.render (e : Element) : Except LayoutError String :=
  (Block.ofElement e).map Block.markdown

/-- The Markdown of a node. -/
def Node.render (n : Node) : Except LayoutError String :=
  (Block.ofNode n).map Block.markdown

/-- The Markdown of nodes, one behind the other. -/
def renderNodes (ns : List Node) : Except LayoutError String :=
  (blocksOfNodes ns).map markdownOfBlocks

end DocMarkdown
