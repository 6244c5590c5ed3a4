import DocMarkdown.Report.Cause

/-!
# Command/Notice — what a command says besides its output

A **notice** tells of one file that was written or left alone, or of what a dry run would have done;
the last one may tell why the command failed.  Each is one line, `text`.
-/

namespace DocMarkdown

/-- **A notice.**  An output that joins several pages tells how many. -/
inductive Notice where
  /-- This page would go to the standard output. -/
  | wouldPrint (p : Path)
  /-- So many pages would go to the standard output, joined. -/
  | wouldPrintJoined (count : Nat)
  /-- This file would be written. -/
  | wouldWrite (p : Path) (joined? : Option Nat)
  /-- This file was written. -/
  | wrote (p : Path) (joined? : Option Nat)
  /-- This file exists and was left alone. -/
  | skipped (p : Path)
  /-- The command failed. -/
  | failed (error : RunError)
deriving DecidableEq, Repr

namespace Notice

/-- So many things that are not counted further. -/
def inBrackets (count : Nat) (things : String) : String :=
  " (" ++ toString count ++ " " ++ things ++ ")"

/-- **The line of a notice.** -/
def text : Notice → String
  | wouldPrint p => "Would output " ++ p.text
  | wouldPrintJoined count => "Would output " ++ toString count ++ " files concatenated"
  | wouldWrite p none => "Would write " ++ p.text
  | wouldWrite p (some count) =>
    "Would write " ++ p.text ++ inBrackets count "files concatenated"
  | wrote p none => "Wrote " ++ p.text
  | wrote p (some count) => "Wrote " ++ p.text ++ inBrackets count "files"
  | skipped p => "Skipping " ++ p.text ++ " (already exists, use --force to overwrite)"
  | failed error => "Error: " ++ error.record.text

end Notice

end DocMarkdown
