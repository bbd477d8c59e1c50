/-!
# Where the output of an input file goes

The text made from an input file goes to the path of that file with its extension replaced by
`json`. The file's name is the last component of the path, where slashes at the end and
components `.` after the first do not count. Its extension starts at the last dot, unless the
name has no other character before it.

The old extension is taken off the end of the path, and then `.json` is put after the name
that is left, without any further extension or slash. A path whose last component is no name,
such as `/` or `..`, is left as it is; so is the path of `..a`, which is `..` once the
extension `a` is gone.
-/

namespace JsonTemplate

namespace OutputPath

/-- A reversed path without the slashes and the components `.` at its end. -/
def trimEnd : List Char → List Char
  | '/' :: rest => trimEnd rest
  | '.' :: '/' :: rest => trimEnd rest
  | path => path

/-- The last component of a reversed path, reversed. -/
def lastName (path : List Char) : List Char := (trimEnd path).takeWhile (· ≠ '/')

/-- The rest of a reversed path from before its last component on. -/
def directory (path : List Char) : List Char := (trimEnd path).dropWhile (· ≠ '/')

/-- The extension of a reversed name, reversed and without its dot; empty if there is none. -/
def extension (name : List Char) : List Char :=
  match name.dropWhile (· ≠ '.') with
  | _ :: _ :: _ => name.takeWhile (· ≠ '.')
  | _ => []

/-- A reversed name without its extension. -/
def stem (name : List Char) : List Char :=
  match name.dropWhile (· ≠ '.') with
  | _ :: c :: rest => c :: rest
  | _ => name

/-- Whether a last component names no file: it is empty, the directory itself or its parent. -/
def isNoName (name : List Char) : Bool := name = [] ∨ name = ['.'] ∨ name = ['.', '.']

/-- A path with its extension replaced by `json`. -/
def ofInput (path : List Char) : List Char :=
  let bare := path.reverse.drop (extension (lastName path.reverse)).length
  if isNoName (lastName bare) then bare.reverse
  else (stem (lastName bare) ++ directory bare).reverse ++ ['.', 'j', 's', 'o', 'n']

end OutputPath

/-- The path of the file that the text made from an input file goes to. -/
def outputPath (input : String) : String := .ofList (OutputPath.ofInput input.toList)

end JsonTemplate
