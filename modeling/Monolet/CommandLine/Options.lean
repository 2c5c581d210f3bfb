/-!
# Command-line arguments

Arguments are read from left to right. Asking for the version or for help ends reading at once, so only a mistake
before it counts. After `--` every argument is a file name. Every option may be given once, except for `-v`; an
option and its value are one argument with `=` in between or two arguments, the second of which may not look
like an option. A lone `-` is an ordinary value.
-/

namespace Monolet.CommandLine

/-- What is asked for on the command line. -/
structure Options where
  /-- List the built-in programs. -/
  list : Bool := false
  /-- Leave out evaluation. -/
  noEval : Bool := false
  /-- How much to log. -/
  verbosity : Nat := 0
  /-- Run one built-in program. -/
  example? : Option String := none
  /-- Run the program in a file. -/
  file? : Option String := none

/-- Why arguments are refused. -/
inductive UsageError where
  | unexpectedArgument (arg : String)
  | unexpectedValue (option : String)
  | missingValue (option : String)
  | repeated (option : String)
  | conflict

/-- What arguments ask for. -/
inductive Request where
  | version
  | help
  | run (options : Options)

namespace UsageError

/-- What is wrong with the arguments. -/
def message : UsageError → String
  | unexpectedArgument arg => "unexpected argument '" ++ arg ++ "' found"
  | unexpectedValue option => "unexpected value for '" ++ option ++ "' found; no more were expected"
  | missingValue option => "a value is required for '" ++ option ++ "' but none was supplied"
  | repeated option => "the argument '" ++ option ++ "' cannot be used multiple times"
  | conflict => "the argument '--example <NAME>' cannot be used with '[FILE]'"

end UsageError

namespace Options

/-- Take a file name, which may not be empty. -/
def addFile (o : Options) (name : String) : Except UsageError Options :=
  if o.file?.isSome then .error (.unexpectedArgument name)
  else if name.isEmpty then .error (.missingValue "[FILE]")
  else .ok { o with file? := some name }

/-- Take the key of a built-in program. -/
def addExample (o : Options) (key : String) : Except UsageError Options :=
  if o.example?.isSome then .error (.repeated "--example <NAME>") else .ok { o with example? := some key }

/-- A built-in program and a file cannot both be asked for. -/
def finish (o : Options) : Except UsageError Request :=
  if o.example?.isSome && o.file?.isSome then .error .conflict else .ok (.run o)

/-- Take the letters of an argument such as `-vv`: the options, or a request that ends reading. -/
def addLetters (arg : String) (o : Options) : List Char → Except UsageError (Options ⊕ Request)
  | [] => .ok (.inl o)
  | 'v' :: rest => addLetters arg { o with verbosity := o.verbosity + 1 } rest
  | 'V' :: _ => .ok (.inr .version)
  | 'h' :: _ => .ok (.inr .help)
  | _ :: _ => .error (.unexpectedArgument arg)

/-- Take an option without a value: the options, or a request that ends reading. -/
def addFlag (o : Options) (name : String) : Except UsageError (Options ⊕ Request) :=
  match name with
  | "--list" => if o.list then .error (.repeated name) else .ok (.inl { o with list := true })
  | "--no-eval" => if o.noEval then .error (.repeated name) else .ok (.inl { o with noEval := true })
  | "--verbose" => .ok (.inl { o with verbosity := o.verbosity + 1 })
  | "--version" => .ok (.inr .version)
  | "--help" => .ok (.inr .help)
  | _ => .error (.unexpectedArgument name)

/-- Take an option and the value after its `=`. Only `--example` has one. -/
def addValue (o : Options) (name value : String) : Except UsageError Options :=
  if name = "--example" then o.addExample value
  else if name ∈ ["--list", "--no-eval", "--verbose", "--version", "--help"] then
    .error (.unexpectedValue name)
  else .error (.unexpectedArgument name)

/-- Does an argument look like an option? -/
def looksLikeOption (arg : String) : Bool := arg.startsWith "-" && arg ≠ "-"

/-- The name and the value of an argument such as `--name=value`. -/
def splitValue (arg : String) : String × Option String :=
  let name := arg.toList.takeWhile (· ≠ '=')
  match arg.toList.drop name.length with
  | [] => (arg, none)
  | _ :: value => (String.ofList name, some (String.ofList value))

/-- Take one argument that stands for itself. -/
def addSingle (o : Options) (arg : String) : Except UsageError (Options ⊕ Request) :=
  if arg.startsWith "--" then
    match splitValue arg with
    | (name, none) => o.addFlag name
    | (name, some value) => (o.addValue name value).map .inl
  else if looksLikeOption arg then addLetters arg o (arg.toList.drop 1)
  else (o.addFile arg).map .inl

/-- Read arguments on top of the options read so far. -/
def read (o : Options) : List String → Except UsageError Request
  | [] => o.finish
  | "--" :: names => names.foldlM addFile o >>= finish
  | "--example" :: [] => .error (.missingValue "--example <NAME>")
  | "--example" :: value :: rest =>
    if looksLikeOption value then .error (.missingValue "--example <NAME>")
    else
      match o.addExample value with
      | .ok o' => o'.read rest
      | .error e => .error e
  | arg :: rest =>
    match o.addSingle arg with
    | .ok (.inl o') => o'.read rest
    | .ok (.inr request) => .ok request
    | .error e => .error e

end Options

/-- What a list of arguments asks for. -/
def request (args : List String) : Except UsageError Request := ({} : Options).read args

end Monolet.CommandLine
