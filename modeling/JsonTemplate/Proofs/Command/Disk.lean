import JsonTemplate.Command

/-!
# What a run relies on

The surroundings of a run as they are seen from outside: the bytes on its standard input, and a
disk with files and directories at positions, to which paths lead. How paths are followed, what an
access depends on and why one may be refused is left open, so that all that is said here holds of
absolute and relative paths, of links, of missing permissions and of full disks alike.

The laws are those of regular files that nobody else changes during a run. That a write that fails
changes nothing is an assumption: the operating system may leave a truncated file behind.
-/

namespace JsonTemplate

/-- Files and directories: the position that a path leads to, whether or not anything stands there,
and what stands at a position. -/
structure Disk (Position : Type) where
  locate : String → Option Position
  entryAt : Position → Option Entry

namespace Disk

variable {Position : Type}

/-- A path leads to a file with the given contents. -/
def Holds (disk : Disk Position) (path : String) (contents : ByteArray) : Prop :=
  ∃ position, disk.locate path = some position ∧ disk.entryAt position = some (.file contents)

/-- At a position there is a file with the given contents afterwards. At every other position there
is what there was before, and every path leads where it led. -/
structure Wrote (before after : Disk Position) (position : Position) (contents : ByteArray) :
    Prop where
  entryAt_self : after.entryAt position = some (.file contents)
  entryAt_of_ne : ∀ other, other ≠ position → after.entryAt other = before.entryAt other
  locate_eq : after.locate = before.locate

end Disk

/-- The accesses of a host do to the disk what they are asked for, if they succeed, and nothing
otherwise. A state of the surroundings has a standard input and a disk. -/
structure Host.Faithful {σ Position : Type} (host : Host (StateM σ)) (input : σ → ByteArray)
    (disk : σ → Disk Position) : Prop where
  /-- Reading the standard input changes nothing on the disk and gives all of it. -/
  readInput : ∀ {before result after}, host.readInput.run before = (result, after) →
    disk after = disk before ∧ ∀ bytes, result = .ok bytes → bytes = input before
  /-- Reading a file changes nothing on the disk and gives the contents of the file to which the
  path leads. -/
  readFile : ∀ {path before result after}, (host.readFile path).run before = (result, after) →
    disk after = disk before ∧ ∀ bytes, result = .ok bytes → (disk before).Holds path bytes
  /-- Writing a file gives it the contents, at the position to which the path leads. -/
  writeFile : ∀ {path contents before after},
    (host.writeFile path contents).run before = (.ok (), after) →
      ∃ position, (disk before).locate path = some position ∧
        (disk before).Wrote (disk after) position contents
  /-- A write that fails changes nothing on the disk. -/
  writeFile_error : ∀ {path contents before error after},
    (host.writeFile path contents).run before = (.error error, after) → disk after = disk before

end JsonTemplate
