import JsonTemplate.Proofs.Command.ArgumentGroups
import JsonTemplate.Proofs.Command.WrittenFiles

/-!
# Runs are all or nothing

On every faithful host, a run of the command either fails, with a report and nothing else, or does
the one thing that its arguments ask for. Everything that can fail is done before the file is
written, and the line on the standard output is printed after it, so no failure leaves a part of the
work behind.
-/

namespace JsonTemplate

/-- What a list of arguments asks for, told by its groups. -/
def asked (arguments : List String) : Arguments :=
  .ofGroups (ArgumentGroup.ofArguments arguments)

/-- The file that the text of a run goes to: the one of the last output option, or the one next to
the input unless the standard output is asked for. -/
inductive GoesTo (request : Arguments) : String → Prop
  | output {path : String} : request.output = some path → GoesTo request path
  | nextToInput {input : String} :
      request.output = none → request.toStdout = false → request.input = some input →
      GoesTo request (outputPath input)

section

variable {Position : Type}

/-- The bytes that a run has to compile: those of its input file, or else of its standard input. -/
def IsSource (input : ByteArray) (disk : Disk Position) : Option String → ByteArray → Prop
  | none, bytes => bytes = input
  | some path, bytes => disk.Holds path bytes

/-- The bytes that a run has to compile are a source that is compiled to a text. -/
def Compiles (request : Arguments) (input : ByteArray) (disk : Disk Position) (text : String) :
    Prop :=
  ∃ source : String, IsSource input disk request.input source.toUTF8 ∧
    compile source request.spacing = .ok text

/-- What a run does when nothing keeps it from it: what it prints, and the disk after it. -/
inductive Does (request : Arguments) (input : ByteArray) (before : Disk Position) :
    String → Disk Position → Prop
  | help : request.help = true → Does request input before (usage ++ "\n") before
  | write {text path : String} {position : Position} {after : Disk Position} :
      request.help = false → Compiles request input before text → GoesTo request path →
      before.locate path = some position → before.Wrote after position text.toUTF8 →
      Does request input before (path ++ "\n") after
  | print {text : String} :
      request.help = false → Compiles request input before text →
      (∀ path, ¬GoesTo request path) → Does request input before (text ++ "\n") before

/-- A run that fails leaves the disk as it was and only reports an error. -/
structure FailsWhole (before : Disk Position) (outcome : Outcome) (after : Disk Position) :
    Prop where
  exitCode_eq : outcome.exitCode = 1
  stdout_eq : outcome.stdout = ""
  disk_eq : after = before

/-- A run that succeeds does what it is asked for and reports nothing. -/
structure SucceedsWhole (request : Arguments) (input : ByteArray) (before : Disk Position)
    (outcome : Outcome) (after : Disk Position) : Prop where
  exitCode_eq : outcome.exitCode = 0
  stderr_eq : outcome.stderr = ""
  does : Does request input before outcome.stdout after

end

/-- What keeps a run on a host from doing what it is asked for: its source can not be read, is no
text or is not compiled, or the text can not be written. -/
inductive Obstacle {σ : Type} (host : Host (StateM σ)) (request : Arguments) (before : σ) : Prop
  | reading {error : FileError} {after : σ} :
      (host.readSource request.input).run before = (.error error, after) →
      Obstacle host request before
  | decoding {bytes : ByteArray} {after : σ} :
      (host.readSource request.input).run before = (.ok bytes, after) →
      (∀ source : String, source.toUTF8 ≠ bytes) → Obstacle host request before
  | compiling {source : String} {error : CompileError} {after : σ} :
      (host.readSource request.input).run before = (.ok source.toUTF8, after) →
      compile source request.spacing = .error error → Obstacle host request before
  | writing {source text path : String} {error : FileError} {middle after : σ} :
      (host.readSource request.input).run before = (.ok source.toUTF8, middle) →
      compile source request.spacing = .ok text → GoesTo request path →
      (host.writeFile path text.toUTF8).run middle = (.error error, after) →
      Obstacle host request before

/-- The destination of a run is the file that its text goes to. -/
theorem destination?_eq_some_iff {request : Arguments} {path : String} :
    request.destination? = some path ↔ GoesTo request path := by
  unfold Arguments.destination?
  constructor
  · intro h
    split at h
    · rename_i output _ houtput
      cases h
      exact .output houtput
    · rename_i named houtput hinput
      split at h
      · cases h
      · rename_i hstdout
        cases h
        exact .nextToInput houtput (Bool.not_eq_true _ ▸ hstdout) hinput
    · cases h
  · rintro (⟨houtput⟩ | ⟨houtput, hstdout, hinput⟩)
    · simp only [houtput]
    · simp [houtput, hstdout, hinput]

/-- Bytes are decoded to the text whose bytes they are. -/
theorem fromUTF8?_eq_some_iff {bytes : ByteArray} {source : String} :
    String.fromUTF8? bytes = some source ↔ source.toUTF8 = bytes := by
  unfold String.fromUTF8?
  split
  · constructor
    · rintro ⟨⟩
      rfl
    · rintro rfl
      rfl
  · rename_i hvalid
    constructor
    · nofun
    · rintro rfl
      exact absurd source.isValidUTF8 hvalid

/-- A computation goes on in the state that the one before it has left. -/
theorem run_bind_of_eq {σ α β : Type} {first : StateM σ α} {next : α → StateM σ β}
    {before after : σ} {result : α} (h : first.run before = (result, after)) :
    (first >>= next).run before = (next result).run after := by
  change (next (first.run before).1).run (first.run before).2 = _
  rw [h]

section

variable {σ Position : Type} {host : Host (StateM σ)} {input : σ → ByteArray}
  {disk : σ → Disk Position} {request : Arguments} {before middle after : σ}

/-- Reading its source, a run leaves the disk as it was and finds the bytes that it has to
compile. -/
theorem Host.Faithful.readSource (h : host.Faithful input disk) {source : Option String}
    {result : Except FileError ByteArray}
    (hread : (host.readSource source).run before = (result, after)) :
    disk after = disk before ∧
      ∀ bytes, result = .ok bytes → IsSource (input before) (disk before) source bytes := by
  cases source with
  | none => exact h.readInput hread
  | some path => exact h.readFile hread

/-- How a run ends in a state: it has failed because of an obstacle, or done its work. -/
def EndsWhole (host : Host (StateM σ)) (input : σ → ByteArray) (disk : σ → Disk Position)
    (request : Arguments) (before : σ) (outcome : Outcome) (after : σ) : Prop :=
  FailsWhole (disk before) outcome (disk after) ∧ request.help = false ∧
      Obstacle host request before ∨
    SucceedsWhole request (input before) (disk before) outcome (disk after)

/-- A text that has been compiled is delivered, or can not be written. -/
theorem endsWhole_deliver (h : host.Faithful input disk) {source text : String}
    (hhelp : request.help = false)
    (hread : (host.readSource request.input).run before = (.ok source.toUTF8, middle))
    (hcompile : compile source request.spacing = .ok text) :
    ∃ outcome after, (host.deliver request.destination? text).run middle = (outcome, after) ∧
      EndsWhole host input disk request before outcome after := by
  obtain ⟨hmiddle, hsource⟩ := h.readSource hread
  have hcompiles : Compiles request (input before) (disk before) text :=
    ⟨source, hsource _ rfl, hcompile⟩
  cases hdestination : request.destination? with
  | none =>
    refine ⟨.success text, middle, rfl, Or.inr ⟨rfl, rfl, ?_⟩⟩
    rw [hmiddle]
    refine .print hhelp hcompiles fun path hpath => ?_
    rw [destination?_eq_some_iff.mpr hpath] at hdestination
    cases hdestination
  | some path =>
    have hpath : GoesTo request path := destination?_eq_some_iff.mp hdestination
    obtain ⟨result, after, hwrite⟩ :
        ∃ result after, (host.writeFile path text.toUTF8).run middle = (result, after) :=
      ⟨_, _, rfl⟩
    cases result with
    | ok =>
      refine ⟨.success path, after, run_bind_of_eq hwrite, Or.inr ⟨rfl, rfl, ?_⟩⟩
      obtain ⟨position, hlocate, hwrote⟩ := h.writeFile hwrite
      rw [hmiddle] at hlocate hwrote
      exact .write hhelp hcompiles hpath hlocate hwrote
    | error error =>
      refine ⟨_, after, run_bind_of_eq hwrite, Or.inl ⟨⟨rfl, rfl, ?_⟩, hhelp, ?_⟩⟩
      · exact (h.writeFile_error hwrite).trans hmiddle
      · exact .writing hread hcompile hpath hwrite

/-- Bytes that have been read are compiled and delivered, or are no source. -/
theorem endsWhole_compileBytes (h : host.Faithful input disk) {bytes : ByteArray}
    (hhelp : request.help = false)
    (hread : (host.readSource request.input).run before = (.ok bytes, middle)) :
    ∃ outcome after, (host.compileBytes request bytes).run middle = (outcome, after) ∧
      EndsWhole host input disk request before outcome after := by
  have hmiddle : disk middle = disk before := (h.readSource hread).1
  unfold Host.compileBytes
  cases hbytes : String.fromUTF8? bytes with
  | none =>
    refine ⟨_, middle, rfl, Or.inl ⟨⟨rfl, rfl, hmiddle⟩, hhelp, .decoding hread ?_⟩⟩
    intro source heq
    rw [fromUTF8?_eq_some_iff.mpr heq] at hbytes
    cases hbytes
  | some source =>
    obtain rfl := fromUTF8?_eq_some_iff.mp hbytes
    dsimp only
    cases hcompile : compile source request.spacing with
    | ok text => exact endsWhole_deliver h hhelp hread hcompile
    | error error =>
      exact ⟨_, middle, rfl, Or.inl ⟨⟨rfl, rfl, hmiddle⟩, hhelp, .compiling hread hcompile⟩⟩

/-- A run whose arguments are understood ends as a whole. -/
theorem endsWhole_run (h : host.Faithful input disk) {arguments : List String}
    (hrequest : Arguments.read arguments = .ok request) :
    ∃ outcome after, (host.run arguments).run before = (outcome, after) ∧
      EndsWhole host input disk request before outcome after := by
  unfold Host.run
  rw [hrequest]
  dsimp only
  cases hhelp : request.help with
  | true => exact ⟨.success usage, before, rfl, Or.inr ⟨rfl, rfl, .help hhelp⟩⟩
  | false =>
    obtain ⟨result, middle, hread⟩ :
        ∃ result middle, (host.readSource request.input).run before = (result, middle) :=
      ⟨_, _, rfl⟩
    rw [if_neg Bool.false_ne_true, run_bind_of_eq hread]
    cases result with
    | ok bytes => exact endsWhole_compileBytes h hhelp hread
    | error error =>
      have hmiddle : disk middle = disk before := (h.readSource hread).1
      exact ⟨_, middle, rfl, Or.inl ⟨⟨rfl, rfl, hmiddle⟩, hhelp, .reading hread⟩⟩

end

/-- On a faithful host, every run of the command changes nothing and reports why it fails, or does
exactly what its arguments ask for. -/
theorem run_allOrNothing {σ Position : Type} {host : Host (StateM σ)} {input : σ → ByteArray}
    {disk : σ → Disk Position} (h : host.Faithful input disk) (arguments : List String)
    (before : σ) :
    ∃ outcome after, (host.run arguments).run before = (outcome, after) ∧
      (FailsWhole (disk before) outcome (disk after) ∧
          ((∃ error, Arguments.read arguments = .error error) ∨
            (asked arguments).help = false ∧ Obstacle host (asked arguments) before) ∨
        SucceedsWhole (asked arguments) (input before) (disk before) outcome (disk after)) := by
  cases hread : Arguments.read arguments with
  | error error =>
    refine ⟨.failure error.message, before, ?_, Or.inl ⟨⟨rfl, rfl, rfl⟩, Or.inl ⟨error, rfl⟩⟩⟩
    rw [Host.run, hread]
    rfl
  | ok request =>
    obtain rfl : request = asked arguments := Arguments.eq_ofGroups_of_read hread
    obtain ⟨outcome, after, hrun, hends⟩ := endsWhole_run h hread
    exact ⟨outcome, after, hrun, hends.imp_left fun ⟨hfails, hwhy⟩ => ⟨hfails, Or.inr hwhy⟩⟩

/-- A working directory with one template, and an empty directory elsewhere. -/
def templateFiles : Files where
  working := ["home"]
  entries :=
    [(["home"], .directory), (["home", "a.jsonx"], .file "[1]".toUTF8), (["out"], .directory)]

/-- A template in the working directory is compiled to a file in an empty directory below the
root. -/
theorem run_toAbsolutePath :
    (Host.ofFiles .empty).Faithful (fun _ => .empty) Files.disk ∧
      ∃ after, ((Host.ofFiles .empty).run ["-o", "/out/b.json", "a.jsonx"]).run templateFiles =
          (.success "/out/b.json", after) ∧
        SucceedsWhole (asked ["-o", "/out/b.json", "a.jsonx"]) .empty templateFiles.disk
          (.success "/out/b.json") after.disk := by
  have hfaithful := Host.faithful_ofFiles .empty
  have hsuccess : (runCommand ["-o", "/out/b.json", "a.jsonx"] .empty templateFiles).1 =
      .success "/out/b.json" := by decide +kernel
  obtain ⟨outcome, after, hrun, hends⟩ :=
    run_allOrNothing hfaithful ["-o", "/out/b.json", "a.jsonx"] templateFiles
  have houtcome : outcome = .success "/out/b.json" := by
    rw [← hsuccess, runCommand, hrun]
  subst houtcome
  rcases hends with ⟨hfails, -⟩ | hsucceeds
  · cases hfails.exitCode_eq
  · exact ⟨hfaithful, after, hrun, hsucceeds⟩

end JsonTemplate
