import Monolet.CommandLine.Options
import Monolet.Program.Examples
import Monolet.Program.Report

/-!
# Running the command line

A run takes the arguments and, if they name a file, what reading it gave, and yields what is written and the exit
code: 0 after a run, 1 when the file or the asked program is no good, 2 when the arguments are, and 101 when
the place of a parse error does not fit its source.
-/

namespace Monolet.CommandLine

/-- Why a file could not be read. -/
inductive ReadFailure where
  | notFound
  | isDirectory
  | other (message : String)

/-- The message of the operating system. -/
def ReadFailure.message : ReadFailure → String
  | notFound => "No such file or directory (os error 2)"
  | isDirectory => "Is a directory (os error 21)"
  | other message => message

/-- What a run leaves behind. -/
structure Result where
  exit : UInt32 := 0
  stdout : String := ""
  stderr : String := ""

/-- The answer to `--version`. -/
def versionText : String := "monoinfer 0.1.0\n"

/-- The answer to `--help`. -/
def helpText : String :=
  "Infer monomorphic types for tiny lambda programs and run them

Usage: monoinfer [OPTIONS] [FILE]

Arguments:
  [FILE]  Check and run this source file instead of the built-in examples

Options:
      --list            List the built-in example programs
      --example <NAME>  Run only the built-in example with this key
      --no-eval         Only infer types, skip evaluation
  -v, --verbose...      Increase log verbosity (-v info, -vv debug, -vvv trace)
  -h, --help            Print help
  -V, --version         Print version
"

/-- A text whose lines after the first are indented. -/
def indent (text : String) : String :=
  String.ofList (text.toList.flatMap fun c => if c = '\n' then "\n    ".toList else [c])

/-- A failure with its cause on standard error. -/
def failure (what : String) (cause? : Option String) : Result where
  exit := 1
  stderr :=
    match cause? with
    | some cause => "Error: " ++ what ++ "\n\nCaused by:\n    " ++ indent cause ++ "\n"
    | none => "Error: " ++ what ++ "\n"

/-- One line of the list of programs, with the titles in one column. -/
def listLine (p : Program) : String :=
  p.key ++ String.ofList (List.replicate (14 - p.key.length) ' ') ++ " " ++ p.title ++ "\n"

/-- What running a built-in program writes. -/
def exampleText (fuel : Nat) (evaluate : Bool) (p : Program) : String :=
  match Report.ofSource fuel p.title evaluate p.source with
  | .ok report => report.print ++ "\n"
  | .error e =>
    "Running \"" ++ p.title ++ "\":\nParse failed with: " ++
      (e.render .plain p.source).getD e.details ++ "\n\n"

/-- Run the program in a file. -/
def runFile (fuel : Nat) (evaluate : Bool) (path : String) (contents : Except ReadFailure String) :
    Result :=
  match contents with
  | .error e => failure ("Failed to read: " ++ path) (some e.message)
  | .ok source =>
    match Report.ofSource fuel path evaluate source with
    | .ok report => { stdout := report.print ++ "\n" }
    | .error e =>
      match e.render .plain source with
      | some text => failure ("Failed to parse: " ++ path) (some text)
      | none => { exit := 101 }

/-- Run what the options ask for; `contents` is what reading the named file gave. -/
def Options.run (fuel : Nat) (contents : Except ReadFailure String) (o : Options) : Result :=
  if o.list then { stdout := String.join (Program.examples.map listLine) }
  else
    match o.file?, o.example? with
    | some path, _ => runFile fuel (!o.noEval) path contents
    | none, some key =>
      match Program.find? key with
      | some p => { stdout := exampleText fuel (!o.noEval) p }
      | none => failure ("no example named '" ++ key ++ "', see --list") none
    | none, none => { stdout := String.join (Program.examples.map (exampleText fuel (!o.noEval))) }

/-- The file that has to be read before a run, if any. -/
def Request.file? : Request → Option String
  | .run o => if o.list then none else o.file?
  | .version | .help => none

/-- Answer a request. -/
def Request.answer (fuel : Nat) (contents : Except ReadFailure String) : Request → Result
  | .version => { stdout := versionText }
  | .help => { stdout := helpText }
  | .run o => o.run fuel contents

/-- Refuse arguments. -/
def UsageError.refuse (e : UsageError) : Result where
  exit := 2
  stderr := "error: " ++ e.message ++ "\n\nFor more information, try '--help'.\n"

end Monolet.CommandLine
