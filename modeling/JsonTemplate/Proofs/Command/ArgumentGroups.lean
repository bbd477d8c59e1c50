import JsonTemplate.Command

/-!
# Groups of arguments

A command line is a row of groups, each of which can be told apart without the others once it is
known where it starts: an output option takes the argument behind it, whatever that looks like, and
every other argument is a group by itself. What a command line asks for is told by its groups.
-/

namespace JsonTemplate

/-- Arguments that belong together. -/
inductive ArgumentGroup where
  | pretty (spelling : String)
  | stdout (spelling : String)
  | help (spelling : String)
  | output (option path : String)
  | trailing (option : String)
  | unknown (option : String)
  | positional (argument : String)
deriving DecidableEq, Repr

namespace ArgumentGroup

/-- The group of an argument without one behind it, from its role. -/
def ofRole (argument : String) : ArgumentRole → ArgumentGroup
  | .pretty => pretty argument
  | .stdout => stdout argument
  | .help => help argument
  | .output => trailing argument
  | .unknown => unknown argument
  | .positional => positional argument

/-- The groups of a list of arguments, from left to right. -/
def ofArguments : List String → List ArgumentGroup
  | [] => []
  | [argument] => [ofRole argument (roleOf argument)]
  | argument :: next :: rest =>
    if roleOf argument = .output then output argument next :: ofArguments rest
    else ofRole argument (roleOf argument) :: ofArguments (next :: rest)

/-- An argument that takes no other one is a group of its own. -/
theorem ofArguments_cons {argument : String} {role : ArgumentRole} (hrole : roleOf argument = role)
    (h : role ≠ .output) (rest : List String) :
    ofArguments (argument :: rest) = ofRole argument role :: ofArguments rest := by
  subst hrole
  cases rest with
  | nil => rfl
  | cons next rest => rw [ofArguments, if_neg h]

/-- Whether a group asks for indentation. -/
def isPretty : ArgumentGroup → Bool
  | pretty _ => true
  | _ => false

/-- Whether a group asks for the standard output. -/
def isStdout : ArgumentGroup → Bool
  | stdout _ => true
  | _ => false

/-- Whether a group asks for help. -/
def isHelp : ArgumentGroup → Bool
  | help _ => true
  | _ => false

/-- The path of an output option. -/
def path? : ArgumentGroup → Option String
  | output _ path => some path
  | _ => none

/-- The argument that may be the input. -/
def input? : ArgumentGroup → Option String
  | positional argument => some argument
  | _ => none

end ArgumentGroup

namespace Arguments

/-- What groups of arguments ask for: the switches among them, the first argument that is no
option, and the last output path. -/
def ofGroups (groups : List ArgumentGroup) : Arguments where
  input := groups.findSome? (·.input?)
  output := (groups.filterMap (·.path?)).getLast?
  toStdout := groups.any (·.isStdout)
  help := groups.any (·.isHelp)
  pretty := groups.any (·.isPretty)

/-- Arguments and others asked for after them. -/
def followedBy (sofar asked : Arguments) : Arguments where
  input := sofar.input.or asked.input
  output := asked.output.or sofar.output
  toStdout := sofar.toStdout || asked.toStdout
  help := sofar.help || asked.help
  pretty := sofar.pretty || asked.pretty

/-- What follows no arguments is all that is asked for. -/
theorem empty_followedBy (asked : Arguments) : empty.followedBy asked = asked := by
  simp [followedBy, empty]

/-- What is asked for once a group has been read. -/
def add (sofar : Arguments) : ArgumentGroup → Arguments
  | .pretty _ => { sofar with pretty := true }
  | .stdout _ => { sofar with toStdout := true }
  | .help _ => { sofar with help := true }
  | .output _ path => { sofar with output := some path }
  | .positional argument => { sofar with input := some argument }
  | .trailing _ | .unknown _ => sofar

/-- A group is added to those before it, if there is no other input. -/
theorem followedBy_cons {sofar : Arguments} {group : ArgumentGroup}
    (h : sofar.input = none ∨ group.input? = none) (groups : List ArgumentGroup) :
    sofar.followedBy (ofGroups (group :: groups)) =
      (sofar.add group).followedBy (ofGroups groups) := by
  cases group with
  | positional argument =>
    have hinput : sofar.input = none := h.resolve_right nofun
    simp [followedBy, ofGroups, add, ArgumentGroup.input?, ArgumentGroup.path?,
      ArgumentGroup.isStdout, ArgumentGroup.isHelp, ArgumentGroup.isPretty, hinput]
  | output option path =>
    simp [followedBy, ofGroups, add, ArgumentGroup.input?, ArgumentGroup.path?,
      ArgumentGroup.isStdout, ArgumentGroup.isHelp, ArgumentGroup.isPretty, List.getLast?_cons]
  | pretty | stdout | help | trailing | unknown =>
    simp [followedBy, ofGroups, add, ArgumentGroup.input?, ArgumentGroup.path?,
      ArgumentGroup.isStdout, ArgumentGroup.isHelp, ArgumentGroup.isPretty]

/-- Arguments that are read after others add to them what their groups ask for. -/
theorem readAll_eq_ok {sofar all : Arguments} {arguments : List String}
    (h : readAll sofar arguments = .ok all) :
    all = sofar.followedBy (ofGroups (ArgumentGroup.ofArguments arguments)) := by
  have hgroup {sofar : Arguments} {argument : String} {role : ArgumentRole}
      (hrole : roleOf argument = role) (houtput : role ≠ .output)
      (hinput : sofar.input = none ∨ (ArgumentGroup.ofRole argument role).input? = none)
      (rest : List String) :
      (sofar.add (.ofRole argument role)).followedBy (ofGroups (ArgumentGroup.ofArguments rest)) =
        sofar.followedBy (ofGroups (ArgumentGroup.ofArguments (argument :: rest))) := by
    rw [ArgumentGroup.ofArguments_cons hrole houtput, followedBy_cons hinput]
  fun_induction readAll sofar arguments with
  | case1 sofar =>
    cases h
    simp [followedBy, ofGroups, ArgumentGroup.ofArguments]
  | case2 sofar argument rest hrole ih => exact (ih h).trans (hgroup hrole nofun (.inr rfl) rest)
  | case3 sofar argument rest hrole ih => exact (ih h).trans (hgroup hrole nofun (.inr rfl) rest)
  | case4 sofar argument rest hrole ih => exact (ih h).trans (hgroup hrole nofun (.inr rfl) rest)
  | case5 => cases h
  | case6 sofar argument hrole path rest ih =>
    rw [ih h, ArgumentGroup.ofArguments, if_pos hrole, followedBy_cons (.inr rfl)]
    rfl
  | case7 => cases h
  | case8 => cases h
  | case9 sofar argument rest hrole hinput ih =>
    have hnone := Option.not_isSome_iff_eq_none.mp hinput
    exact (ih h).trans (hgroup hrole nofun (.inl hnone) rest)

/-- Arguments that are understood ask for what their groups do. -/
theorem eq_ofGroups_of_read {arguments : List String} {all : Arguments}
    (h : read arguments = .ok all) : all = ofGroups (ArgumentGroup.ofArguments arguments) := by
  unfold read at h
  split at h
  · cases h
  · rename_i others hall
    split at h
    · cases h
    · cases h
      rw [readAll_eq_ok hall, empty_followedBy]

end Arguments

end JsonTemplate
