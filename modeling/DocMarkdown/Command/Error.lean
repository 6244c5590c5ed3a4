import DocMarkdown.Command.Options
import DocMarkdown.Convert
import DocMarkdown.Files.Access

/-!
# Command/Error — why a command fails

A command fails at its arguments, at its inputs, or at a file that it reads, converts or writes.
Where something else is the cause, the error holds it.
-/

namespace DocMarkdown

/-- **Why a command fails.** -/
inductive RunError where
  | badArguments (error : ArgumentError)
  /-- There is nothing to convert. -/
  | noInput
  /-- Pages of several files cannot go to the standard output one by one. -/
  | severalToOutput
  /-- The path of an input names no file whose name an output could take. -/
  | noStem
  | notCreated (error : FileError)
  | notRead (p : Path) (error : FileError)
  | notConverted (p : Path) (error : ConvertError)
  | notWritten (p : Path) (error : FileError)
deriving DecidableEq, Repr

end DocMarkdown
