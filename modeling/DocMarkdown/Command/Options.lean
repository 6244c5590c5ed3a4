import DocMarkdown.Files.Path
import DocMarkdown.Text.Quoted

/-!
# Command/Options — the arguments of a command line

Arguments are read from left to right.  An **option** has a long spelling and mostly a short one;
short ones may stand in a cluster behind one dash.  One option, the output, takes a value: from its
own argument or from the next one, whatever that looks like.  Everything else is an input, and so is
everything behind `--`.  The first thing wrong ends the reading, and so does a request for help.
-/

namespace DocMarkdown

/-! ## Options -/

/-- **Where the Markdown goes.** -/
inductive Output where
  | standard
  | path (p : Path)
deriving DecidableEq, Repr

/-- A lone dash stands for the standard output. -/
def Output.ofPath (p : Path) : Output :=
  if p.components = [.name "-"] then standard else path p

/-- **What a conversion is to do.** -/
structure Options where
  inputs : List Path
  output : Output
  /-- All inputs into one output. -/
  concat : Bool
  quiet : Bool
  /-- Tell what would be done, and write nothing. -/
  dryRun : Bool
  /-- Overwrite what exists. -/
  force : Bool
deriving DecidableEq, Repr

namespace Options

/-- The options where nothing is said. -/
def default : Options := ⟨[], .standard, false, false, false, false⟩

/-- One more input. -/
def addInput (o : Options) (text : String) : Options :=
  { o with inputs := o.inputs ++ [⟨text⟩] }

/-- Another output. -/
def setOutput (o : Options) (text : String) : Options :=
  { o with output := .ofPath ⟨text⟩ }

end Options

/-- **What a command line asks for.** -/
inductive Command where
  | help
  | version
  | convert (options : Options)
deriving DecidableEq, Repr

/-! ## Spellings -/

/-- **The options there are.** -/
inductive OptionName where
  | output
  | concat
  | quiet
  | dryRun
  | force
  | help
  | version
deriving DecidableEq, Repr

namespace OptionName

/-- The option with a long spelling. -/
def ofLong? (spelling : String) : Option OptionName :=
  match spelling with
  | "output" => some output
  | "concat" => some concat
  | "quiet" => some quiet
  | "dry-run" => some dryRun
  | "force" => some force
  | "help" => some help
  | "version" => some version
  | _ => none

/-- The option with a short spelling. -/
def ofShort? (c : Char) : Option OptionName :=
  match c with
  | 'o' => some output
  | 'q' => some quiet
  | 'n' => some dryRun
  | 'f' => some force
  | 'h' => some help
  | 'V' => some version
  | _ => none

end OptionName

/-! ## What can be wrong -/

/-- **What is wrong with arguments.**  Options are named as they were spelled. -/
inductive ArgumentError where
  | invalidOption (spelling : String)
  | missingValue (spelling : String)
  | unexpectedValue (spelling value : String)
deriving DecidableEq, Repr

/-- The wording of an error. -/
def ArgumentError.message : ArgumentError → String
  | invalidOption spelling => "invalid option '" ++ spelling ++ "'"
  | missingValue spelling => "missing argument for option '" ++ spelling ++ "'"
  | unexpectedValue spelling value =>
    "unexpected argument for option '" ++ spelling ++ "': " ++ Text.quote value

/-! ## Reading

An option changes the options for what follows, ends the reading, or needs a value (`Effect`).  A
value stands in the same argument or is the next one, so one argument can leave the reader waiting
(`Progress`). -/

/-- **What an option leads to.** -/
inductive Effect where
  /-- The next argument is read with these options. -/
  | next (options : Options)
  /-- Nothing more is read. -/
  | stop (command : Command)
  /-- A value for the output is needed. -/
  | value
deriving DecidableEq, Repr

/-- The effect of an option. -/
def Options.effect (o : Options) : OptionName → Effect
  | .output => .value
  | .concat => .next { o with concat := true }
  | .quiet => .next { o with quiet := true }
  | .dryRun => .next { o with dryRun := true }
  | .force => .next { o with force := true }
  | .help => .stop .help
  | .version => .stop .version

/-- **What one argument leads to**: as an option does, with the value that is needed if it is
there. -/
inductive Progress where
  | next (options : Options)
  | stop (command : Command)
  /-- The next argument is the output, for an option that was spelled so. -/
  | wait (options : Options) (spelling : String)
deriving DecidableEq, Repr

namespace Options

/-- A long option, from behind its dashes: what stands behind an equals sign is its value. -/
def readLong (o : Options) (cs : List Char) : Except ArgumentError Progress :=
  let name := String.ofList (cs.takeWhile (· ≠ '='))
  let spelling := "--" ++ name
  match OptionName.ofLong? name with
  | none => .error (.invalidOption spelling)
  | some option =>
    match o.effect option, cs.dropWhile (· ≠ '=') with
    | .stop command, _ => .ok (.stop command)
    | .next o', [] => .ok (.next o')
    | .next _, _ :: value => .error (.unexpectedValue spelling (String.ofList value))
    | .value, [] => .ok (.wait o spelling)
    | .value, _ :: value => .ok (.next (o.setOutput (String.ofList value)))

/-- **A cluster of short options**, from behind its dash or behind the option `before`.  An equals
sign behind an option announces a value; at the front of the cluster it is an option itself. -/
def readShort (o : Options) (before : Option Char) : List Char → Except ArgumentError Progress
  | [] => .ok (.next o)
  | c :: cs =>
    match before, c with
    | some b, '=' => .error (.unexpectedValue (String.ofList ['-', b]) (String.ofList cs))
    | _, _ =>
      match OptionName.ofShort? c with
      | none => .error (.invalidOption (String.ofList ['-', c]))
      | some option =>
        match o.effect option, cs with
        | .stop command, _ => .ok (.stop command)
        | .next o', _ => o'.readShort (some c) cs
        | .value, [] => .ok (.wait o (String.ofList ['-', c]))
        | .value, '=' :: value => .ok (.next (o.setOutput (String.ofList value)))
        | .value, value => .ok (.next (o.setOutput (String.ofList value)))

/-- One argument in front of `--`. -/
def readArgument (o : Options) (argument : String) : Except ArgumentError Progress :=
  match argument.toList with
  | '-' :: '-' :: cs => o.readLong cs
  | '-' :: c :: cs => o.readShort none (c :: cs)
  | _ => .ok (.next (o.addInput argument))

/-- The arguments that are left. -/
def readAll (o : Options) : List String → Except ArgumentError Command
  | [] => .ok (.convert o)
  | argument :: rest =>
    if argument = "--" then .ok (.convert (rest.foldl addInput o))
    else
      match o.readArgument argument with
      | .error e => .error e
      | .ok (.next o') => o'.readAll rest
      | .ok (.stop command) => .ok command
      | .ok (.wait o' spelling) =>
        match rest with
        | [] => .error (.missingValue spelling)
        | value :: rest' => (o'.setOutput value).readAll rest'

end Options

/-- **What a command line asks for**; without any arguments it asks for help. -/
def Command.ofArguments (arguments : List String) : Except ArgumentError Command :=
  if arguments = [] then .ok .help else Options.default.readAll arguments

end DocMarkdown
