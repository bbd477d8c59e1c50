/-!
# Command-line arguments

Arguments are read from left to right. Switches may be repeated and the last output path
counts; at most one argument may be the input. The first faulty argument decides the error,
and whether the options go together is looked at last.
-/

namespace JsonTemplate

/-- What a command line asks for. -/
structure Arguments where
  input : Option String
  output : Option String
  toStdout : Bool
  help : Bool
  pretty : Bool
deriving DecidableEq, Repr

/-- The line that tells how the program is called. -/
def usage : String := "Usage: jsonx [--pretty] [--stdout] [--output <path>] [<input.jsonx>]"

/-- Why arguments are not understood. -/
inductive ArgumentsError where
  | missingPath (option : String)
  | unknownOption (option : String)
  | severalInputs
  | stdoutWithOutput
deriving DecidableEq, Repr

namespace ArgumentsError

/-- The text of an error about arguments as it is reported. -/
def message : ArgumentsError → String
  | missingPath option => "Missing path after " ++ option
  | unknownOption option => "Unknown option '" ++ option ++ "'\n" ++ usage
  | severalInputs => "Only one input file is supported"
  | stdoutWithOutput => "--stdout and --output cannot be combined"

end ArgumentsError

/-- What an argument is by its spelling. -/
inductive ArgumentRole where
  | pretty
  | stdout
  | output
  | help
  | unknown
  | positional
deriving DecidableEq, Repr

/-- The role of an argument that does not follow an output option. -/
def roleOf (argument : String) : ArgumentRole :=
  if argument = "--pretty" ∨ argument = "-p" then .pretty
  else if argument = "--stdout" then .stdout
  else if argument = "--output" ∨ argument = "-o" then .output
  else if argument = "--help" ∨ argument = "-h" then .help
  else if argument.toList.head? = some '-' then .unknown
  else .positional

namespace Arguments

/-- What no arguments ask for. -/
def empty : Arguments := ⟨none, none, false, false, false⟩

/-- Reads arguments one after the other. -/
def readAll (sofar : Arguments) : List String → Except ArgumentsError Arguments
  | [] => .ok sofar
  | argument :: rest =>
    match roleOf argument with
    | .pretty => readAll { sofar with pretty := true } rest
    | .stdout => readAll { sofar with toStdout := true } rest
    | .help => readAll { sofar with help := true } rest
    | .output =>
      match rest with
      | [] => .error (.missingPath argument)
      | path :: rest => readAll { sofar with output := some path } rest
    | .unknown => .error (.unknownOption argument)
    | .positional =>
      if sofar.input.isSome then .error .severalInputs
      else readAll { sofar with input := some argument } rest

/-- What a list of arguments asks for. -/
def read (arguments : List String) : Except ArgumentsError Arguments :=
  match readAll empty arguments with
  | .error error => .error error
  | .ok all =>
    if all.toStdout && all.output.isSome then .error .stdoutWithOutput else .ok all

end Arguments

end JsonTemplate
