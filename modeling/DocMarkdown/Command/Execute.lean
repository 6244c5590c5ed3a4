import DocMarkdown.Command.Run

/-!
# Command/Execute — the whole command

`execute` runs a command line and gives its exit code: zero, or one with the error as the last of
the notices.
-/

namespace DocMarkdown

/-! ## What it says of itself -/

/-- The name and the version. -/
def versionText : String :=
  "xmldoc2md 0.1.0\n"

/-- How it is used. -/
def helpText : String :=
  versionText ++
  "Convert XML documentation comment files to Markdown\n" ++
  "\n" ++
  "Usage: xmldoc2md [OPTIONS] <INPUT>...\n" ++
  "\n" ++
  "Arguments:\n" ++
  "  <INPUT>...  Input XML files or directories containing them\n" ++
  "\n" ++
  "Options:\n" ++
  "  -o, --output <OUTPUT>     Output directory (or file with --concat, or - for stdout)\n" ++
  "                            Defaults to stdout\n" ++
  "      --concat              Combine all inputs into a single output\n" ++
  "\n" ++
  "Other options:\n" ++
  "  -q, --quiet               Suppress progress messages\n" ++
  "  -n, --dry-run             Show what would be processed without writing\n" ++
  "  -f, --force               Overwrite existing output files\n" ++
  "  -h, --help                Print help\n" ++
  "  -V, --version             Print version\n"

/-! ## Running it -/

variable {m : Type → Type} [Monad m] [Storage m]

/-- What a command line asks for, done. -/
def Command.run : Command → ExceptT RunError m Unit
  | .help => Storage.print (m := m) helpText
  | .version => Storage.print (m := m) versionText
  | .convert o => o.run

/-- A command line, done. -/
def runArguments (arguments : List String) : ExceptT RunError m Unit :=
  match Command.ofArguments arguments with
  | .ok command => command.run
  | .error e => throw (.badArguments e)

/-- **A command line, done and reported**: its exit code. -/
def execute (arguments : List String) : m Nat := do
  match ← (runArguments arguments).run with
  | .ok () => return 0
  | .error e =>
    Storage.notify (.failed e)
    return 1

end DocMarkdown
