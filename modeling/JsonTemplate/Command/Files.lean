/-!
# Files

Files and directories, each named by the components of its path from the root, and a working
directory among them. A path that starts with a slash is followed from the root, and any other one
from the working directory. It is followed component by component: `.` and empty components stay,
and `..` goes up, except at the root. Every component but the last has to be a directory.

Links, permissions and full disks are left out. What is said of all runs of the command is said of
hosts that may refuse any access for any reason, of which these files are one.
-/

namespace JsonTemplate

/-- Why a file can not be read or written: the reason and its number in the operating system. -/
structure FileError where
  reason : String
  number : Nat
deriving DecidableEq, Repr

namespace FileError

/-- Nothing stands at the path. -/
def notFound : FileError := ⟨"No such file or directory", 2⟩

/-- A path goes on behind something that is no directory. -/
def notDirectory : FileError := ⟨"Not a directory", 20⟩

/-- A directory stands where a file is read or written. -/
def isDirectory : FileError := ⟨"Is a directory", 21⟩

/-- A name or a path has too many bytes. -/
def nameTooLong : FileError := ⟨"File name too long", 36⟩

/-- The text of an error as the operating system reports it. -/
def message (error : FileError) : String :=
  error.reason ++ " (os error " ++ .ofList (Nat.toDigits 10 error.number) ++ ")"

end FileError

/-- What can stand at a position: a file with its contents, or a directory. -/
inductive Entry where
  | file (contents : ByteArray)
  | directory

/-- Files and directories by the components of their paths from the root, and the components of the
working directory. -/
structure Files where
  working : List String
  entries : List (List String × Entry)

namespace Files

/-- The greatest number of bytes in a name. -/
def nameLimit : Nat := 255

/-- The greatest number of bytes in a path. -/
def pathLimit : Nat := 4095

/-- The parts of a text between slashes. -/
def splitSlashes : List Char → List (List Char)
  | [] => [[]]
  | c :: rest =>
    match splitSlashes rest with
    | [] => [[c]]
    | part :: parts => if c = '/' then [] :: part :: parts else (c :: part) :: parts

/-- The components of a path, without the empty ones. -/
def components (path : String) : List String :=
  ((splitSlashes path.toList).filter (· ≠ [])).map .ofList

/-- The path of components. -/
def pathOf (components : List String) : String := "/".intercalate components

/-- A directory at the given components and those on the way to it from the root. -/
def directoriesTo (position : List String) : List (List String × Entry) :=
  (List.range position.length).map fun n => (position.take (n + 1), .directory)

/-- The working directory of files that are listed by their paths. -/
def scratch : List String := ["tmp", "scratch"]

/-- Files named by their paths from the working directory, in the directories that they need. -/
def ofList (files : List (String × ByteArray)) : Files where
  working := scratch
  entries :=
    (files.map fun (path, contents) => (scratch ++ components path, .file contents)) ++
      directoriesTo scratch ++
      files.flatMap fun (path, _) => directoriesTo (scratch ++ components path).dropLast

/-- The files below the working directory with their paths from there. -/
def toList (files : Files) : List (String × ByteArray) :=
  files.entries.filterMap fun
    | (position, .file contents) =>
      if files.working.isPrefixOf position then
        some (pathOf (position.drop files.working.length), contents)
      else none
    | (_, .directory) => none

/-- What stands at the given components. The root is always a directory. -/
def entryAt (files : Files) (position : List String) : Option Entry :=
  if position = [] then some .directory else files.entries.lookup position

/-- What a name leads to in a directory, and the components of that position. -/
def lookUp (files : Files) (directory : List String) (name : String) :
    Except FileError (List String × Option Entry) :=
  if nameLimit < name.utf8ByteSize then .error .nameTooLong
  else .ok (directory ++ [name], files.entryAt (directory ++ [name]))

/-- Goes from a directory to the directory that a component leads to. -/
def enter (files : Files) (position : List String) (name : String) :
    Except FileError (List String) := do
  if name = "." then return position
  if name = ".." then return position.dropLast
  match ← files.lookUp position name with
  | (inner, some .directory) => return inner
  | (_, some (.file _)) => throw .notDirectory
  | (_, none) => throw .notFound

/-- Goes from a directory along all the given components. -/
def follow (files : Files) (position : List String) : List String →
    Except FileError (List String)
  | [] => .ok position
  | name :: rest => do follow files (← enter files position name) rest

/-- The components that a path is followed along from the root. -/
def route (files : Files) (path : String) : List String :=
  if path.toList.head? = some '/' then components path else files.working ++ components path

/-- The directory in which a path ends, and the name that it has there for a file. A path whose
last component is no name leads to a directory. -/
def locate (files : Files) (path : String) : Except FileError (List String × String) := do
  if path.isEmpty then throw .notFound
  if pathLimit < path.utf8ByteSize then throw .nameTooLong
  match (components path).getLast? with
  | none => throw .isDirectory
  | some name =>
    let directory ← files.follow [] (files.route path).dropLast
    if name = "." ∨ name = ".." then throw .isDirectory
    return (directory, name)

/-- Whether a path can only lead to a directory. -/
def endsInSlash (path : String) : Bool := path.toList.getLast? = some '/'

/-- The contents of the file at a path. -/
def read (files : Files) (path : String) : Except FileError ByteArray := do
  let (directory, name) ← files.locate path
  match (← files.lookUp directory name).2 with
  | some (.file contents) => if endsInSlash path then throw .notDirectory else return contents
  | some .directory => throw .isDirectory
  | none => throw .notFound

/-- Gives a file its contents, in its place if it was there. -/
def put (position : List String) (contents : ByteArray) :
    List (List String × Entry) → List (List String × Entry)
  | [] => [(position, .file contents)]
  | (other, old) :: rest =>
    if other = position then (position, .file contents) :: rest
    else (other, old) :: put position contents rest

/-- The files after the file at a path has been given its contents. A path that ends in a slash
is refused before its name is looked up. -/
def write (files : Files) (path : String) (contents : ByteArray) :
    Except FileError Files := do
  let (directory, name) ← files.locate path
  if endsInSlash path then throw .isDirectory
  match ← files.lookUp directory name with
  | (_, some .directory) => throw .isDirectory
  | (position, _) => return { files with entries := put position contents files.entries }

end Files

end JsonTemplate
