import JsonTemplate.Command.Arguments
import JsonTemplate.Command.Files
import JsonTemplate.Compile
import JsonTemplate.OutputPath

/-!
# The command

One run of the command reads a template from a file or from its standard input, compiles it,
and writes the text to a file or to its standard output. A run that fails writes nothing but a
report. The surroundings of a run are a `Host`, so that the same definition runs on the
operating system and on `Files`.
-/

namespace JsonTemplate

/-- What a run can do besides computing. Every access may be refused. -/
structure Host (m : Type → Type) where
  readInput : m (Except FileError ByteArray)
  readFile : String → m (Except FileError ByteArray)
  writeFile : String → ByteArray → m (Except FileError Unit)

/-- How a run ends: its exit code and what it prints. -/
structure Outcome where
  exitCode : Nat
  stdout : String
  stderr : String
deriving DecidableEq, Repr

namespace Outcome

/-- A run that prints a line. -/
def success (line : String) : Outcome := ⟨0, line ++ "\n", ""⟩

/-- A run that only reports an error. -/
def failure (report : String) : Outcome := ⟨1, "", "Error: " ++ report ++ "\n"⟩

/-- A text whose lines are indented by four blanks. -/
def indent (text : String) : String :=
  .ofList ("    ".toList ++ text.toList.flatMap fun c =>
    if c = '\n' then '\n' :: "    ".toList else [c])

/-- A run that reports an error and what it was doing. -/
def failureWhile (doing cause : String) : Outcome :=
  failure (doing ++ "\n\nCaused by:\n" ++ indent cause)

end Outcome

namespace Arguments

/-- How the text is laid out. -/
def spacing (arguments : Arguments) : Spacing :=
  if arguments.pretty then .indented else .compact

/-- The file that the text goes to; the standard output if there is none. -/
def destination? (arguments : Arguments) : Option String :=
  match arguments.output, arguments.input with
  | some output, _ => some output
  | none, some input => if arguments.toStdout then none else some (outputPath input)
  | none, none => none

end Arguments

namespace Host

variable {m : Type → Type} [Monad m]

/-- Writes a text where it goes. -/
def deliver (host : Host m) (destination? : Option String) (text : String) : m Outcome :=
  match destination? with
  | none => return .success text
  | some path => do
    match ← host.writeFile path text.toUTF8 with
    | .ok () => return .success path
    | .error error => return .failureWhile ("Writing " ++ path) error.message

/-- Compiles the bytes of a source and writes the text where it goes. -/
def compileBytes (host : Host m) (arguments : Arguments) (bytes : ByteArray) : m Outcome :=
  match String.fromUTF8? bytes with
  | none =>
    return .failureWhile ("Reading " ++ arguments.input.getD "stdin")
      "stream did not contain valid UTF-8"
  | some source =>
    match compile source arguments.spacing with
    | .ok text => host.deliver arguments.destination? text
    | .error error =>
      return .failureWhile ("Compiling " ++ arguments.input.getD "<stdin>") error.message

/-- Reads the file at a path, or the standard input if there is no path. -/
def readSource (host : Host m) : Option String → m (Except FileError ByteArray)
  | none => host.readInput
  | some path => host.readFile path

/-- Runs the command. -/
def run (host : Host m) (arguments : List String) : m Outcome :=
  match Arguments.read arguments with
  | .error error => return .failure error.message
  | .ok arguments =>
    if arguments.help then return .success usage
    else do
      match ← host.readSource arguments.input with
      | .ok bytes => host.compileBytes arguments bytes
      | .error error =>
        return .failureWhile ("Reading " ++ arguments.input.getD "stdin") error.message

/-- The host that reads and writes among the given files. -/
def ofFiles (input : ByteArray) : Host (StateM Files) where
  readInput := return .ok input
  readFile path := return (← get).read path
  writeFile path contents := do
    match (← get).write path contents with
    | .ok files => do
      set files
      return .ok ()
    | .error error => return .error error

end Host

/-- The outcome of a run among the given files, and the files after it. -/
def runCommand (arguments : List String) (input : ByteArray) (files : Files) :
    Outcome × Files :=
  (Host.ofFiles input).run arguments |>.run files

end JsonTemplate
