import JsonTemplate.Command

/-!
# The program

Runs the command on the operating system.
-/

namespace JsonTemplate

/-- All bytes that are left on a stream, after those already read. -/
partial def readRest (stream : IO.FS.Stream) (sofar : ByteArray) : IO ByteArray := do
  let more ← stream.read 65536
  if more.isEmpty then return sofar else readRest stream (sofar ++ more)

/-- The error with a number that the operating system gave, possibly negated. -/
def fileErrorOfNumber (number : UInt32) (reason : String) : FileError :=
  let positive := if number < 0x80000000 then number else 0 - number
  let known := [FileError.notFound, .notDirectory, .isDirectory, .nameTooLong]
  (known.find? (·.number = positive.toNat)).getD ⟨reason, positive.toNat⟩

/-- An error of the operating system as an error of a file. -/
def fileErrorOf : IO.Error → FileError
  | .noFileOrDirectory _ number reason => fileErrorOfNumber number reason
  | .inappropriateType _ number reason => fileErrorOfNumber number reason
  | .permissionDenied _ number reason => fileErrorOfNumber number reason
  | .resourceExhausted _ number reason => fileErrorOfNumber number reason
  | .alreadyExists _ number reason => fileErrorOfNumber number reason
  | .invalidArgument _ number reason => fileErrorOfNumber number reason
  | .resourceVanished number reason => fileErrorOfNumber number reason
  | .resourceBusy number reason => fileErrorOfNumber number reason
  | .hardwareFault number reason => fileErrorOfNumber number reason
  | .otherError number reason => fileErrorOfNumber number reason
  | error => ⟨error.toString, 0⟩

/-- The operating system as a host. -/
def system : Host IO where
  readInput := do
    try return .ok (← readRest (← IO.getStdin) .empty) catch error =>
      return .error (fileErrorOf error)
  readFile path := do
    try return .ok (← IO.FS.readBinFile path) catch error => return .error (fileErrorOf error)
  writeFile path contents := do
    try
      IO.FS.writeBinFile path contents
      return .ok ()
    catch error => return .error (fileErrorOf error)

end JsonTemplate

/-- Runs the command on the operating system and gives its exit code. -/
def main (arguments : List String) : IO UInt32 := do
  let outcome ← JsonTemplate.system.run arguments
  IO.print outcome.stdout
  IO.eprint outcome.stderr
  return .ofNat outcome.exitCode
