import JsonTemplate.Proofs.Command.Disk

/-!
# Reading and writing among files

The host of `Files` keeps the laws of all hosts. A file that is written stands at the position to
which its path leads, and what stands at any other position is what stood there before. No directory
comes or goes with it, so every path leads where it led.
-/

namespace JsonTemplate

section

variable {ε α β : Type}

/-- Of two steps, one after the other, both have to succeed. -/
theorem bind_eq_ok_iff {first : Except ε α} {next : α → Except ε β} {result : β} :
    (first >>= next) = .ok result ↔ ∃ middle, first = .ok middle ∧ next middle = .ok result := by
  cases first with
  | error error => exact iff_of_false nofun nofun
  | ok middle =>
    constructor
    · exact fun h => ⟨middle, rfl, h⟩
    · rintro ⟨_, ⟨⟩, h⟩
      exact h

/-- What is refused on a condition succeeds only where the condition does not hold. -/
theorem refusal_eq_ok_iff {condition : Prop} [Decidable condition] {error : ε}
    {next : Unit → Except ε β} {result : β} :
    (if condition then throw error >>= next else next ()) = .ok result ↔
      ¬condition ∧ next () = .ok result := by
  by_cases h : condition
  · rw [if_pos h]
    exact iff_of_false nofun fun hnot => hnot.1 h
  · rw [if_neg h]
    exact (and_iff_right h).symm

end

namespace Files

variable {files other : Files}

/-- What a name leads to is what stands at the position behind the directory, if the name is not
too long. -/
theorem lookUp_eq_ok_iff {directory : List String} {name : String}
    {found : List String × Option Entry} :
    files.lookUp directory name = .ok found ↔ name.utf8ByteSize ≤ nameLimit ∧
      found = (directory ++ [name], files.entryAt (directory ++ [name])) := by
  rw [lookUp]
  split
  · rename_i hlimit
    exact iff_of_false nofun fun h => Nat.not_le_of_lt hlimit h.1
  · rename_i hlimit
    rw [Except.ok.injEq, and_iff_right (Nat.le_of_not_lt hlimit), eq_comm]

/-- A component stays, goes up, or leads to a directory of its name. -/
theorem enter_eq_ok_iff {position inner : List String} {name : String} :
    files.enter position name = .ok inner ↔
      (name = "." ∧ inner = position) ∨ (name = ".." ∧ inner = position.dropLast) ∨
        (name ≠ "." ∧ name ≠ ".." ∧ name.utf8ByteSize ≤ nameLimit ∧
          files.entryAt (position ++ [name]) = some .directory ∧ inner = position ++ [name]) := by
  rw [enter]
  by_cases hdot : name = "."
  · subst hdot
    simp [pure, Except.pure, eq_comm]
  by_cases hdots : name = ".."
  · subst hdots
    simp [pure, Except.pure, eq_comm]
  simp only [hdot, hdots, if_false, bind_eq_ok_iff, lookUp_eq_ok_iff, false_and, false_or, ne_eq,
    not_false_eq_true, true_and]
  constructor
  · rintro ⟨found, ⟨hlimit, rfl⟩, h⟩
    rcases hentry : files.entryAt (position ++ [name]) with _ | contents | _ <;> rw [hentry] at h
    · cases h
    · cases h
    · exact ⟨hlimit, rfl, (Except.ok.inj h).symm⟩
  · rintro ⟨hlimit, hentry, rfl⟩
    refine ⟨_, ⟨hlimit, rfl⟩, ?_⟩
    rw [hentry]
    rfl

/-- A path is followed alike where the directories on it are still there. -/
theorem follow_mono {position directory names : List String}
    (hentry : ∀ inner, files.entryAt inner = some .directory →
      other.entryAt inner = some .directory)
    (h : files.follow position names = .ok directory) :
    other.follow position names = .ok directory := by
  induction names generalizing position with
  | nil => exact h
  | cons name names ih =>
    obtain ⟨inner, henter, hnames⟩ := bind_eq_ok_iff.mp h
    refine bind_eq_ok_iff.mpr ⟨inner, ?_, ih hnames⟩
    rw [enter_eq_ok_iff] at henter ⊢
    refine henter.imp_right (Or.imp_right ?_)
    rintro ⟨hdot, hdots, hlimit, hinner, heq⟩
    exact ⟨hdot, hdots, hlimit, hentry _ hinner, heq⟩

/-- A path is located where the directories on it lead, under its last component. -/
theorem locate_eq_ok_iff {path name : String} {directory : List String} :
    files.locate path = .ok (directory, name) ↔
      ¬path.isEmpty ∧ path.utf8ByteSize ≤ pathLimit ∧ (components path).getLast? = some name ∧
        files.follow [] (files.route path).dropLast = .ok directory ∧
        name ≠ "." ∧ name ≠ ".." := by
  rw [locate, refusal_eq_ok_iff, refusal_eq_ok_iff, Nat.not_lt]
  refine and_congr_right fun _ => and_congr_right fun _ => ?_
  cases (components path).getLast? with
  | none => exact iff_of_false nofun nofun
  | some last =>
    simp only [bind_eq_ok_iff, refusal_eq_ok_iff, not_or]
    constructor
    · rintro ⟨inner, hfollow, ⟨hdot, hdots⟩, h⟩
      cases h
      exact ⟨rfl, hfollow, hdot, hdots⟩
    · rintro ⟨hlast, hfollow, hdot, hdots⟩
      cases hlast
      exact ⟨directory, hfollow, ⟨hdot, hdots⟩, rfl⟩

/-- A path that has been located is located alike where the directories are still there. -/
theorem locate_mono {path name : String} {directory : List String}
    (hworking : other.working = files.working)
    (hentry : ∀ inner, files.entryAt inner = some .directory →
      other.entryAt inner = some .directory)
    (h : files.locate path = .ok (directory, name)) :
    other.locate path = .ok (directory, name) := by
  obtain ⟨hempty, hlimit, hlast, hfollow, hname⟩ := locate_eq_ok_iff.mp h
  refine locate_eq_ok_iff.mpr ⟨hempty, hlimit, hlast, ?_, hname⟩
  have hroute : other.route path = files.route path := by rw [route, route, hworking]
  rw [hroute]
  exact follow_mono hentry hfollow

/-- The position to which a path leads: its last component in the directory where it ends. -/
def position? (files : Files) (path : String) : Option (List String) :=
  match files.locate path with
  | .ok (directory, name) => some (directory ++ [name])
  | .error _ => none

/-- A path that is located leads to a position. -/
theorem position?_eq_some {path name : String} {directory : List String}
    (h : files.locate path = .ok (directory, name)) :
    files.position? path = some (directory ++ [name]) := by
  rw [position?, h]

/-- A path that is not located leads nowhere. -/
theorem position?_eq_none {path : String} {error : FileError}
    (h : files.locate path = .error error) : files.position? path = none := by
  rw [position?, h]

/-- The files as a disk. -/
def disk (files : Files) : Disk (List String) := ⟨files.position?, files.entryAt⟩

/-- With the same directories around, all paths lead to the same positions. -/
theorem position?_congr (hworking : other.working = files.working)
    (hentry : ∀ inner, other.entryAt inner = some .directory ↔
      files.entryAt inner = some .directory) :
    other.position? = files.position? := by
  funext path
  cases hfiles : files.locate path with
  | ok located =>
    have hother := locate_mono hworking (fun inner => (hentry inner).mpr) hfiles
    rw [position?_eq_some hfiles, position?_eq_some hother]
  | error error =>
    cases hother : other.locate path with
    | error error => rw [position?_eq_none hfiles, position?_eq_none hother]
    | ok located =>
      have hlocated := locate_mono hworking.symm (fun inner => (hentry inner).mp) hother
      rw [hfiles] at hlocated
      cases hlocated

/-- A file that is put somewhere is found there, and nothing else is found otherwise. -/
theorem lookup_put (position : List String) (contents : ByteArray)
    (entries : List (List String × Entry)) (sought : List String) :
    (put position contents entries).lookup sought =
      if sought = position then some (.file contents) else entries.lookup sought := by
  induction entries with
  | nil =>
    by_cases hsought : sought = position
    · simp [put, hsought]
    · simp [put, List.lookup_cons, hsought, beq_eq_false_iff_ne.mpr hsought]
  | cons entry entries ih =>
    obtain ⟨place, old⟩ := entry
    rw [put]
    split
    · rename_i hplace
      by_cases hsought : sought = position
      · simp [hsought]
      · simp [List.lookup_cons, hplace, hsought, beq_eq_false_iff_ne.mpr hsought]
    · rename_i hplace
      by_cases hsought : sought = place
      · simp [hsought, hplace]
      · rw [List.lookup_cons, List.lookup_cons, beq_eq_false_iff_ne.mpr hsought, ih]

/-- A file is read at the position to which its path leads. -/
theorem holds_of_read {path : String} {contents : ByteArray}
    (h : files.read path = .ok contents) : files.disk.Holds path contents := by
  obtain ⟨⟨directory, name⟩, hlocate, h⟩ := bind_eq_ok_iff.mp h
  obtain ⟨found, hfound, h⟩ := bind_eq_ok_iff.mp h
  obtain ⟨-, rfl⟩ := lookUp_eq_ok_iff.mp hfound
  refine ⟨directory ++ [name], position?_eq_some hlocate, ?_⟩
  change files.entryAt (directory ++ [name]) = _
  dsimp only at h
  split at h
  · rename_i hentry
    split at h
    · cases h
    · cases h
      exact hentry
  · cases h
  · cases h

/-- A file is put where its path leads, if no directory is there. -/
theorem exists_of_write {path : String} {contents : ByteArray} {after : Files}
    (h : files.write path contents = .ok after) :
    ∃ directory name, files.locate path = .ok (directory, name) ∧
      files.entryAt (directory ++ [name]) ≠ some .directory ∧
      after = { files with entries := put (directory ++ [name]) contents files.entries } := by
  obtain ⟨⟨directory, name⟩, hlocate, h⟩ := bind_eq_ok_iff.mp h
  obtain ⟨-, h⟩ := refusal_eq_ok_iff.mp h
  obtain ⟨found, hfound, h⟩ := bind_eq_ok_iff.mp h
  obtain ⟨-, rfl⟩ := lookUp_eq_ok_iff.mp hfound
  refine ⟨directory, name, hlocate, ?_⟩
  split at h
  · cases h
  · rename_i position entry hne hfound
    cases hfound
    cases h
    exact ⟨hne, rfl⟩

/-- Where a file has been put in the place of no directory, it is the only entry that changes. -/
theorem entryAt_put {directory : List String} {name : String} {contents : ByteArray}
    (other : List String) :
    entryAt { files with entries := put (directory ++ [name]) contents files.entries } other =
      if other = directory ++ [name] then some (.file contents) else files.entryAt other := by
  rw [entryAt, entryAt, lookup_put]
  split
  · rename_i hroot
    rw [hroot, if_neg (by simp)]
  · rfl

/-- Writing a file changes what stands at its position and nothing else. -/
theorem wrote_of_write {path : String} {contents : ByteArray} {after : Files}
    (h : files.write path contents = .ok after) :
    ∃ position, files.disk.locate path = some position ∧
      files.disk.Wrote after.disk position contents := by
  obtain ⟨directory, name, hlocate, hentry, rfl⟩ := exists_of_write h
  refine ⟨directory ++ [name], position?_eq_some hlocate, ?_⟩
  constructor
  case entryAt_self => exact (entryAt_put _).trans (if_pos rfl)
  case entryAt_of_ne => exact fun other hother => (entryAt_put other).trans (if_neg hother)
  case locate_eq =>
    refine position?_congr rfl fun inner => ?_
    rw [entryAt_put]
    split
    · rename_i hinner
      exact iff_of_false nofun (hinner ▸ hentry)
    · rfl

end Files

/-- Writing a file either replaces the files or leaves them as they are. -/
theorem Host.run_writeFile_ofFiles (input : ByteArray) (path : String) (contents : ByteArray)
    (files : Files) :
    ((Host.ofFiles input).writeFile path contents).run files =
      match files.write path contents with
      | .ok after => (.ok (), after)
      | .error error => (.error error, files) := by
  unfold Host.ofFiles
  cases hwrite : files.write path contents <;> simp [hwrite] <;> rfl

/-- Reading and writing among files does to them what it is asked for, or nothing. -/
theorem Host.faithful_ofFiles (input : ByteArray) :
    (Host.ofFiles input).Faithful (fun _ => input) Files.disk where
  readInput h := by
    cases h
    exact ⟨rfl, fun bytes hbytes => (Except.ok.inj hbytes).symm⟩
  readFile h := by
    cases h
    exact ⟨rfl, fun bytes hbytes => Files.holds_of_read hbytes⟩
  writeFile {path contents before after} h := by
    rw [run_writeFile_ofFiles] at h
    cases hwrite : before.write path contents with
    | ok written =>
      rw [hwrite] at h
      cases h
      exact Files.wrote_of_write hwrite
    | error error =>
      rw [hwrite] at h
      cases h
  writeFile_error {path contents before error after} h := by
    rw [run_writeFile_ofFiles] at h
    cases hwrite : before.write path contents with
    | ok written =>
      rw [hwrite] at h
      cases h
    | error error =>
      rw [hwrite] at h
      cases h
      rfl

end JsonTemplate
