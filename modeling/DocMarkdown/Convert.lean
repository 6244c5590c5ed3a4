import DocMarkdown.Page.Layout
import DocMarkdown.Tree.Load

/-!
# Convert — a documentation file as Markdown

`convert` reads the text of a documentation file and writes its page.  The text may be no markup, or
markup of another layout; then there is no page at all.
-/

namespace DocMarkdown

/-- **Why a text has no page.** -/
inductive ConvertError where
  | load (error : LoadError)
  | layout (error : LayoutError)
deriving DecidableEq, Repr

/-- The wording of an error. -/
def ConvertError.message : ConvertError → String
  | load e => e.message
  | layout e => e.message

/-- **The Markdown of a documentation file.** -/
def convert (text : String) : Except ConvertError String := do
  let root ← (Element.parse text).mapError .load
  root.render.mapError .layout

end DocMarkdown
