import DocMarkdown.Command.Error
import DocMarkdown.Command.Execute
import DocMarkdown.Command.Notice
import DocMarkdown.Command.Options
import DocMarkdown.Command.Run
import DocMarkdown.Command.World
import DocMarkdown.Convert
import DocMarkdown.Files.Access
import DocMarkdown.Files.Disk
import DocMarkdown.Files.Path
import DocMarkdown.Main
import DocMarkdown.Markup.Attribute
import DocMarkdown.Markup.Basic
import DocMarkdown.Markup.Doctype
import DocMarkdown.Markup.Error
import DocMarkdown.Markup.Extent
import DocMarkdown.Markup.Reference
import DocMarkdown.Markup.Token
import DocMarkdown.Page.Block
import DocMarkdown.Page.Kind
import DocMarkdown.Page.Layout
import DocMarkdown.Proofs.Command.Again
import DocMarkdown.Proofs.Command.Agreement
import DocMarkdown.Proofs.Command.Arrival
import DocMarkdown.Proofs.Command.DryRun
import DocMarkdown.Proofs.Command.Failure
import DocMarkdown.Proofs.Command.Frame
import DocMarkdown.Proofs.Command.Gathering
import DocMarkdown.Proofs.Command.Outcome
import DocMarkdown.Proofs.Command.Quiet
import DocMarkdown.Proofs.Command.Regathering
import DocMarkdown.Proofs.Files.Change
import DocMarkdown.Proofs.Files.Follow
import DocMarkdown.Proofs.Files.Listing
import DocMarkdown.Proofs.Files.Segments
import DocMarkdown.Proofs.Foundations
import DocMarkdown.Proofs.Markup.Extension
import DocMarkdown.Proofs.Markup.Fault
import DocMarkdown.Proofs.Markup.Lines
import DocMarkdown.Proofs.Markup.Reference
import DocMarkdown.Proofs.Markup.Reread
import DocMarkdown.Proofs.Markup.Seam
import DocMarkdown.Proofs.Markup.TagLines
import DocMarkdown.Proofs.Markup.Value
import DocMarkdown.Proofs.Markup.Whole
import DocMarkdown.Proofs.Markup.Written
import DocMarkdown.Proofs.Page.Demand
import DocMarkdown.Proofs.Page.Gist
import DocMarkdown.Proofs.Page.Groups
import DocMarkdown.Proofs.Page.LineFeeds
import DocMarkdown.Proofs.Page.Places
import DocMarkdown.Proofs.Page.Render
import DocMarkdown.Proofs.Page.Rendered
import DocMarkdown.Proofs.Page.Slice
import DocMarkdown.Proofs.Text.Blank
import DocMarkdown.Proofs.Text.Indent
import DocMarkdown.Proofs.Text.LineEnd
import DocMarkdown.Proofs.Text.Numeral
import DocMarkdown.Proofs.Tree.Closing
import DocMarkdown.Proofs.Tree.Concat
import DocMarkdown.Proofs.Tree.Descent
import DocMarkdown.Proofs.Tree.Ending
import DocMarkdown.Proofs.Tree.Growth
import DocMarkdown.Proofs.Tree.Insertion
import DocMarkdown.Proofs.Tree.Invariant
import DocMarkdown.Proofs.Tree.Lines
import DocMarkdown.Proofs.Tree.Marks
import DocMarkdown.Proofs.Tree.Nesting
import DocMarkdown.Proofs.Tree.Normal
import DocMarkdown.Proofs.Tree.Parse
import DocMarkdown.Proofs.Tree.Position
import DocMarkdown.Proofs.Tree.Prefix
import DocMarkdown.Proofs.Tree.Provenance
import DocMarkdown.Proofs.Tree.Tidy
import DocMarkdown.Proofs.Tree.Value
import DocMarkdown.Proofs.Tree.Written
import DocMarkdown.Report.Cause
import DocMarkdown.Report.Record
import DocMarkdown.Text.Blank
import DocMarkdown.Text.Cut
import DocMarkdown.Text.Indent
import DocMarkdown.Text.LineEnd
import DocMarkdown.Text.Numeral
import DocMarkdown.Text.Quoted
import DocMarkdown.Text.Unprintable
import DocMarkdown.Text.Width
import DocMarkdown.Tree.Builder
import DocMarkdown.Tree.Element
import DocMarkdown.Tree.Load
