/-!
# Page/Block — the page, and its Markdown

A **block** is a piece of the page, in the words of the page: an entry under a heading, a summary, a
link, prose.  Blocks nest as the elements they were made from did, and `Block.markdown` writes each
in its one form, with the text of what it holds at one place in it.
-/

namespace DocMarkdown

/-- **A piece of the page.** -/
inductive Block where
  /-- The page of an assembly, with its members in three groups. -/
  | page (title : String) (fields methods events : List Block)
  /-- What a heading with the name of a member stands over. -/
  | entry (name : String) (body : List Block)
  | summary (body : List Block)
  | remarks (body : List Block)
  | sample (code : String)
  | link (target : String) (label : List Block)
  | parameter (name : String) (body : List Block)
  | exception (name : String) (body : List Block)
  | returns (body : List Block)
  | prose (text : String)
  /-- What has no place on the page. -/
  | nothing
deriving Repr

mutual

/-- **The Markdown of a block.**  Parameters follow one another on one line; every other block but a
link and prose ends a paragraph. -/
def Block.markdown : Block → String
  | .page title fields methods events =>
    "## " ++ title ++ " ##\n\n## Fields\n\n" ++ markdownOfBlocks fields ++
      "\n\n## Methods\n\n" ++ markdownOfBlocks methods ++
      "\n\n## Events\n\n" ++ markdownOfBlocks events ++ "\n\n"
  | .entry name body => "### " ++ name ++ "\n\n" ++ markdownOfBlocks body ++ "\n\n"
  | .summary body => markdownOfBlocks body ++ "\n\n"
  | .remarks body => "**remarks**\n\n" ++ markdownOfBlocks body ++ "\n\n"
  | .sample code => "**example**\n\n" ++ code ++ "\n\n"
  | .link target label => "[" ++ markdownOfBlocks label ++ "](" ++ target ++ ")"
  | .parameter name body => "_" ++ name ++ "_: " ++ markdownOfBlocks body
  | .exception name body => "_" ++ name ++ "_: " ++ markdownOfBlocks body ++ "\n\n"
  | .returns body => "Returns: " ++ markdownOfBlocks body ++ "\n\n"
  | .prose text => text
  | .nothing => ""

/-- The Markdown of blocks, one behind the other. -/
def markdownOfBlocks : List Block → String
  | [] => ""
  | b :: bs => b.markdown ++ markdownOfBlocks bs

end

end DocMarkdown
