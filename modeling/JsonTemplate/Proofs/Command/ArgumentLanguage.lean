import JsonTemplate.Proofs.Command.ArgumentGroups
import Mathlib.Data.List.Induction
import Mathlib.Data.List.Perm.Basic

/-!
# The language of command lines

Every list of arguments is a row of groups in exactly one way, and what is read depends on the
groups alone. A command line is understood unless one of its groups is faulty, or it asks for the
standard output and for a file at once. The first faulty group is the one that is reported; the
conflict is reported only where no group is faulty. Since being faulty does not depend on the order
of the groups, except that output paths replace each other, groups may be permuted as long as the
output paths stay in order.

A group that lacks its path can only be the last one, so it is not moved by such a permutation.
-/

namespace JsonTemplate

namespace ArgumentGroup

/-- The argument that a group starts with. -/
def leading : ArgumentGroup → String
  | pretty spelling | stdout spelling | help spelling => spelling
  | output option _ | trailing option | unknown option => option
  | positional argument => argument

/-- The arguments of a group. -/
def words (group : ArgumentGroup) : List String := group.leading :: group.path?.toList

/-- The spellings of switches and options. -/
def spellings : List String := ["--pretty", "-p", "--stdout", "--help", "-h", "--output", "-o"]

/-- The arguments that each kind of group may start with. -/
def IsSpelled : ArgumentGroup → Prop
  | pretty spelling => spelling = "--pretty" ∨ spelling = "-p"
  | stdout spelling => spelling = "--stdout"
  | help spelling => spelling = "--help" ∨ spelling = "-h"
  | output option _ | trailing option => option = "--output" ∨ option = "-o"
  | unknown option => option.toList.head? = some '-' ∧ option ∉ spellings
  | positional argument => argument.toList.head? ≠ some '-'

/-- A list of arguments is a row of groups, of which only the last may lack its path. -/
structure Compose (groups : List ArgumentGroup) (arguments : List String) : Prop where
  spelled : ∀ group ∈ groups, group.IsSpelled
  complete : ∀ option, trailing option ∉ groups.dropLast
  words_eq : groups.flatMap words = arguments

/-- Groups without a fault: no option is unknown or lacks its path, and there is at most one
input. -/
structure IsFaultless (groups : List ArgumentGroup) : Prop where
  known : ∀ option, unknown option ∉ groups
  complete : ∀ option, trailing option ∉ groups
  inputs : (groups.filterMap (·.input?)).length ≤ 1

/-- The fault of a group behind others. -/
inductive IsFaulty (before : List ArgumentGroup) : ArgumentGroup → ArgumentsError → Prop
  | trailing (option : String) : IsFaulty before (trailing option) (.missingPath option)
  | unknown (option : String) : IsFaulty before (unknown option) (.unknownOption option)
  | positional {earlier : String} (argument : String) :
      positional earlier ∈ before → IsFaulty before (positional argument) .severalInputs

/-- The standard output and a file are asked for at once. -/
def Conflict (groups : List ArgumentGroup) : Prop :=
  ∃ spelling option path, stdout spelling ∈ groups ∧ output option path ∈ groups

/-- An error is that of the first group with a fault. -/
def FirstError (groups : List ArgumentGroup) (error : ArgumentsError) : Prop :=
  ∃ before group after, groups = before ++ group :: after ∧ IsFaultless before ∧
    IsFaulty before group error

/-- Groups in another order, with the output paths in the same order and an option without a path
still at the end. -/
structure Rearranges (others groups : List ArgumentGroup) : Prop where
  perm : others.Perm groups
  paths : others.filterMap (·.path?) = groups.filterMap (·.path?)
  complete : ∀ option, trailing option ∉ others.dropLast

variable {group : ArgumentGroup} {groups others before : List ArgumentGroup}
  {arguments : List String} {error : ArgumentsError}

/-- The role of the argument that a group starts with. -/
def role : ArgumentGroup → ArgumentRole
  | pretty _ => .pretty
  | stdout _ => .stdout
  | help _ => .help
  | output _ _ | trailing _ => .output
  | unknown _ => .unknown
  | positional _ => .positional

/-- Every spelling of an option starts with a hyphen. -/
theorem head?_of_mem_spellings {option : String} (h : option ∈ spellings) :
    option.toList.head? = some '-' := by
  have hall : ∀ option ∈ spellings, option.toList.head? = some '-' := by decide
  exact hall option h

/-- The first word of a group tells what kind of group it is. -/
theorem roleOf_leading (h : group.IsSpelled) : roleOf group.leading = group.role := by
  cases group with
  | pretty spelling | help spelling =>
    rcases h with rfl | rfl <;> rfl
  | output option | trailing option =>
    rcases h with rfl | rfl <;> rfl
  | stdout spelling =>
    obtain rfl : spelling = "--stdout" := h
    rfl
  | unknown option =>
    obtain ⟨hdash, hspelling⟩ := h
    simp only [spellings, List.mem_cons, List.not_mem_nil, or_false, not_or] at hspelling
    simp [leading, role, roleOf, hspelling, hdash]
  | positional argument =>
    have hdash : argument.toList.head? ≠ some '-' := h
    have hne : ∀ option ∈ spellings, argument ≠ option := by
      rintro option hoption rfl
      exact hdash (head?_of_mem_spellings hoption)
    simp only [spellings, List.forall_mem_cons, List.not_mem_nil, false_implies, implies_true,
      and_true] at hne
    simp [leading, role, roleOf, hne, hdash]

/-- Taking an argument by its role gives a group that is spelled as it should be. -/
theorem isSpelled_ofRole (argument : String) : (ofRole argument (roleOf argument)).IsSpelled := by
  unfold roleOf
  split_ifs with hpretty hstdout houtput hhelp hdash
  · exact hpretty
  · exact hstdout
  · exact houtput
  · exact hhelp
  · refine ⟨hdash, ?_⟩
    simp only [spellings, List.mem_cons, List.not_mem_nil, or_false, not_or]
    tauto
  · exact hdash

/-- The words of a group at the front of a command line are taken for that group again. -/
theorem ofArguments_append (hspelled : group.IsSpelled)
    (hcomplete : arguments = [] ∨ ∀ option, group ≠ trailing option) :
    ofArguments (group.words ++ arguments) = group :: ofArguments arguments := by
  have hrole := roleOf_leading hspelled
  cases group with
  | output option path => exact if_pos hrole
  | trailing option =>
    obtain rfl : arguments = [] := hcomplete.resolve_right fun h => h option rfl
    exact congrArg (fun role => [ofRole option role]) hrole
  | pretty | stdout | help | unknown | positional => exact ofArguments_cons hrole nofun arguments

/-- A command line of a group and more groups is the words of the group and a command line of the
others. -/
theorem compose_cons : Compose (group :: groups) arguments ↔
    group.IsSpelled ∧ (groups = [] ∨ ∀ option, group ≠ trailing option) ∧
      ∃ rest, arguments = group.words ++ rest ∧ Compose groups rest := by
  constructor
  · intro h
    refine ⟨h.spelled group List.mem_cons_self, ?_, groups.flatMap words, h.words_eq.symm,
      fun other hother => h.spelled other (List.mem_cons_of_mem _ hother), ?_, rfl⟩
    · rcases groups with - | ⟨next, groups⟩
      · exact .inl rfl
      · right
        rintro option rfl
        exact h.complete option List.mem_cons_self
    · intro option hoption
      rcases groups with - | ⟨next, groups⟩
      · cases hoption
      · exact h.complete option (List.mem_cons_of_mem _ hoption)
  · rintro ⟨hspelled, hlast, rest, rfl, h⟩
    refine ⟨List.forall_mem_cons.mpr ⟨hspelled, h.spelled⟩, fun option hoption => ?_, ?_⟩
    · rcases groups with - | ⟨next, groups⟩
      · cases hoption
      · rcases List.mem_cons.mp hoption with rfl | hrest
        · exact hlast.elim nofun (· option rfl)
        · exact h.complete option hrest
    · rw [List.flatMap_cons, h.words_eq]

/-- The groups of a list of arguments make it up. -/
theorem compose_ofArguments (arguments : List String) :
    Compose (ofArguments arguments) arguments := by
  have hnil : Compose [] [] := ⟨nofun, nofun, rfl⟩
  fun_induction ofArguments arguments with
  | case1 => exact hnil
  | case2 argument =>
    refine compose_cons.mpr ⟨isSpelled_ofRole argument, .inl rfl, [], ?_, hnil⟩
    cases roleOf argument <;> rfl
  | case3 argument next rest hrole ih =>
    refine compose_cons.mpr ⟨?_, .inr nofun, rest, rfl, ih⟩
    simpa [hrole, ofRole, IsSpelled] using isSpelled_ofRole argument
  | case4 argument next rest hrole ih =>
    have hspelled := isSpelled_ofRole argument
    refine compose_cons.mpr ⟨hspelled, .inr ?_, next :: rest, ?_, ih⟩
    · cases h : roleOf argument <;> simp_all [ofRole]
    · cases h : roleOf argument <;> rfl

example : ofArguments ["-o", "-o", "a", "-o"] =
    [output "-o" "-o", positional "a", trailing "-o"] := by decide

/-- No other groups make it up. -/
theorem eq_ofArguments (h : Compose groups arguments) : groups = ofArguments arguments := by
  induction groups generalizing arguments with
  | nil =>
    obtain rfl : [] = arguments := h.words_eq
    rfl
  | cons group groups ih =>
    obtain ⟨hspelled, hlast, rest, rfl, hrest⟩ := compose_cons.mp h
    have hcomplete : rest = [] ∨ ∀ option, group ≠ trailing option := by
      refine hlast.imp_left ?_
      rintro rfl
      exact hrest.words_eq.symm
    rw [ofArguments_append hspelled hcomplete, ← ih hrest]

/-- Only a positional argument gives an input. -/
theorem input?_eq_some_iff {argument : String} :
    group.input? = some argument ↔ group = positional argument := by
  cases group <;> simp [input?]

/-- Only an output with its path gives a path. -/
theorem path?_eq_some_iff {path : String} :
    group.path? = some path ↔ ∃ option, group = output option path := by
  cases group <;> simp [path?]

/-- Only the option for standard output asks for it. -/
theorem isStdout_iff : group.isStdout = true ↔ ∃ spelling, group = stdout spelling := by
  cases group <;> simp [isStdout]

/-- The inputs of some groups are their positional arguments. -/
theorem mem_filterMap_input? {argument : String} :
    argument ∈ groups.filterMap (·.input?) ↔ positional argument ∈ groups := by
  simp only [List.mem_filterMap, input?_eq_some_iff, exists_eq_right]

/-- Without groups there is no fault. -/
theorem isFaultless_nil : IsFaultless [] := ⟨nofun, nofun, Nat.zero_le 1⟩

/-- Groups are without a fault if those in front are and the last one is not faulty behind them. -/
theorem isFaultless_concat : IsFaultless (before ++ [group]) ↔
    IsFaultless before ∧ ∀ error, ¬ IsFaulty before group error := by
  have hinputs : (∀ argument, positional argument ∉ before) ↔
      before.filterMap (·.input?) = [] := by
    simp only [List.eq_nil_iff_forall_not_mem, mem_filterMap_input?]
  constructor
  · intro h
    have hlength := h.inputs
    rw [List.filterMap_append, List.length_append] at hlength
    refine ⟨⟨fun option hoption => h.known option (List.mem_append_left _ hoption),
      fun option hoption => h.complete option (List.mem_append_left _ hoption), by omega⟩, ?_⟩
    rintro error (option | option | @⟨earlier, argument, hearlier⟩)
    · exact h.complete option (List.mem_append_right _ List.mem_cons_self)
    · exact h.known option (List.mem_append_right _ List.mem_cons_self)
    · have hpos := List.length_pos_of_mem (mem_filterMap_input?.mpr hearlier)
      have hlast : ([positional argument].filterMap (·.input?)).length = 1 := rfl
      omega
  · rintro ⟨h, hgroup⟩
    refine ⟨fun option hoption => ?_, fun option hoption => ?_, ?_⟩
    · rcases List.mem_append.mp hoption with hbefore | hlast
      · exact h.known option hbefore
      · obtain rfl := List.mem_singleton.mp hlast
        exact hgroup _ (.unknown option)
    · rcases List.mem_append.mp hoption with hbefore | hlast
      · exact h.complete option hbefore
      · obtain rfl := List.mem_singleton.mp hlast
        exact hgroup _ (.trailing option)
    · rw [List.filterMap_append, List.length_append]
      cases group with
      | positional argument =>
        have hnone := hinputs.mp fun earlier hearlier => hgroup _ (.positional argument hearlier)
        rw [hnone]
        exact Nat.le_refl 1
      | pretty | stdout | help | output | trailing | unknown => simpa [input?] using h.inputs

/-- Groups are without a fault, or one of them is the first with a fault. -/
theorem isFaultless_or_firstError (groups : List ArgumentGroup) :
    IsFaultless groups ∨ ∃ error, FirstError groups error := by
  induction groups using List.reverseRec with
  | nil => exact .inl isFaultless_nil
  | append_singleton front group ih =>
    rcases ih with hfront | ⟨error, before, faulty, after, rfl, hbefore, hfaulty⟩
    · by_cases h : ∃ error, IsFaulty front group error
      · obtain ⟨error, hfaulty⟩ := h
        exact .inr ⟨error, front, group, [], rfl, hfront, hfaulty⟩
      · exact .inl (isFaultless_concat.mpr ⟨hfront, not_exists.mp h⟩)
    · exact .inr ⟨error, before, faulty, after ++ [group], by simp, hbefore, hfaulty⟩

/-- Groups that are rearranged are the groups of their own words. -/
theorem Rearranges.compose (h : Rearranges others groups) (hcompose : Compose groups arguments) :
    Compose others (others.flatMap words) :=
  ⟨fun group hgroup => hcompose.spelled group (h.perm.mem_iff.mp hgroup), h.complete, rfl⟩

/-- Whether groups are without fault does not depend on their order. -/
theorem isFaultless_iff_of_perm (h : others.Perm groups) :
    IsFaultless others ↔ IsFaultless groups := by
  have hinputs := (h.filterMap (·.input?)).length_eq
  constructor
  · intro hothers
    exact ⟨fun option hoption => hothers.known option (h.mem_iff.mpr hoption),
      fun option hoption => hothers.complete option (h.mem_iff.mpr hoption),
      hinputs ▸ hothers.inputs⟩
  · intro hgroups
    exact ⟨fun option hoption => hgroups.known option (h.mem_iff.mp hoption),
      fun option hoption => hgroups.complete option (h.mem_iff.mp hoption),
      hinputs ▸ hgroups.inputs⟩

/-- Whether groups are in conflict does not depend on their order. -/
theorem conflict_iff_of_perm (h : others.Perm groups) : Conflict others ↔ Conflict groups := by
  simp only [Conflict, h.mem_iff]

/-- Only one group may be an input and the output paths are in the same order, so the same is asked
for. -/
theorem ofGroups_eq_of_rearranges (h : Rearranges others groups) (hgroups : IsFaultless groups) :
    Arguments.ofGroups others = Arguments.ofGroups groups := by
  have hinput : others.findSome? (·.input?) = groups.findSome? (·.input?) := by
    have hperm := h.perm.filterMap (·.input?)
    have heq : others.filterMap (·.input?) = groups.filterMap (·.input?) := by
      rcases Nat.le_one_iff_eq_zero_or_eq_one.mp hgroups.inputs with hzero | hone
      · rw [List.length_eq_zero_iff.mp hzero] at hperm ⊢
        exact hperm.eq_nil
      · obtain ⟨argument, hargument⟩ := List.length_eq_one_iff.mp hone
        rw [hargument] at hperm ⊢
        exact List.perm_singleton.mp hperm
    rw [← List.head?_filterMap, heq, List.head?_filterMap]
  simp only [Arguments.ofGroups, hinput, h.paths, h.perm.any_eq]

end ArgumentGroup

namespace Arguments

open ArgumentGroup

variable {group : ArgumentGroup} {groups others before : List ArgumentGroup}
  {arguments rest : List String} {error : ArgumentsError}

/-- There is an input exactly if one of the groups is a positional argument. -/
theorem isSome_input_ofGroups :
    (ofGroups groups).input.isSome ↔ ∃ argument, positional argument ∈ groups := by
  simp only [ofGroups, ← List.head?_filterMap, List.isSome_head?, ne_eq,
    List.eq_nil_iff_forall_not_mem, mem_filterMap_input?, not_forall, not_not]

/-- Standard output is asked for exactly if one of the groups does so. -/
theorem toStdout_ofGroups :
    (ofGroups groups).toStdout = true ↔ ∃ spelling, stdout spelling ∈ groups := by
  simp only [ofGroups, List.any_eq_true, isStdout_iff]
  constructor
  · rintro ⟨_, hgroup, spelling, rfl⟩
    exact ⟨spelling, hgroup⟩
  · rintro ⟨spelling, h⟩
    exact ⟨_, h, spelling, rfl⟩

/-- There is an output path exactly if one of the groups gives it. -/
theorem isSome_output_ofGroups : (ofGroups groups).output.isSome ↔
    ∃ option path, ArgumentGroup.output option path ∈ groups := by
  simp only [ofGroups, List.getLast?_isSome, ne_eq, List.eq_nil_iff_forall_not_mem,
    List.mem_filterMap, path?_eq_some_iff, not_forall, not_not]
  constructor
  · rintro ⟨path, _, hgroup, option, rfl⟩
    exact ⟨option, path, hgroup⟩
  · rintro ⟨option, path, h⟩
    exact ⟨path, _, h, option, rfl⟩

/-- Reading goes through a group by the role of its first word, and then through what follows it. -/
theorem readAll_words_append (sofar : Arguments) (group : ArgumentGroup) (rest : List String) :
    readAll sofar (group.words ++ rest) =
      match roleOf group.leading with
      | .pretty => readAll { sofar with pretty := true } (group.path?.toList ++ rest)
      | .stdout => readAll { sofar with toStdout := true } (group.path?.toList ++ rest)
      | .help => readAll { sofar with help := true } (group.path?.toList ++ rest)
      | .output =>
        match group.path?.toList ++ rest with
        | [] => .error (.missingPath group.leading)
        | path :: rest => readAll { sofar with output := some path } rest
      | .unknown => .error (.unknownOption group.leading)
      | .positional =>
        if sofar.input.isSome then .error .severalInputs
        else readAll { sofar with input := some group.leading } (group.path?.toList ++ rest) := by
  rw [words, List.cons_append]
  exact readAll.eq_def _ _

/-- Reading stops at a faulty group with the error of the fault. -/
theorem readAll_of_isFaulty (hspelled : group.IsSpelled) (hfaulty : IsFaulty before group error)
    (hcomplete : rest = [] ∨ ∀ option, group ≠ trailing option) :
    readAll (ofGroups before) (group.words ++ rest) = .error error := by
  have hrole := roleOf_leading hspelled
  cases hfaulty with
  | trailing option =>
    obtain rfl : rest = [] := hcomplete.resolve_right fun h => h option rfl
    rw [readAll_words_append, hrole]
    rfl
  | unknown option =>
    rw [readAll_words_append, hrole]
    rfl
  | positional argument hearlier =>
    rw [readAll_words_append, hrole]
    exact if_pos (isSome_input_ofGroups.mpr ⟨_, hearlier⟩)

/-- One more group is added to what the groups before it say, if they leave the input to it. -/
theorem ofGroups_concat (hinput : (ofGroups before).input = none ∨ group.input? = none) :
    ofGroups (before ++ [group]) = (ofGroups before).add group := by
  cases group with
  | positional argument =>
    have hnone : before.findSome? (·.input?) = none := hinput.resolve_right nofun
    simp only [ofGroups, List.findSome?_append, hnone]
    simp [add, input?, path?, isStdout, isHelp, isPretty]
  | pretty | stdout | help | output | trailing | unknown =>
    simp [ofGroups, add, input?, path?, isStdout, isHelp, isPretty, List.findSome?_append]

/-- Reading goes on behind a group that is not faulty. -/
theorem readAll_of_not_isFaulty (hspelled : group.IsSpelled)
    (h : ∀ error, ¬ IsFaulty before group error) :
    readAll (ofGroups before) (group.words ++ rest) =
      readAll (ofGroups (before ++ [group])) rest := by
  have hrole := roleOf_leading hspelled
  have hinput : (ofGroups before).input = none ∨ group.input? = none := by
    cases group with
    | positional argument =>
      refine .inl (Option.not_isSome_iff_eq_none.mp fun hsome => ?_)
      obtain ⟨earlier, hearlier⟩ := isSome_input_ofGroups.mp hsome
      exact h _ (.positional argument hearlier)
    | pretty | stdout | help | output | trailing | unknown => exact .inr rfl
  rw [ofGroups_concat hinput, readAll_words_append, hrole]
  cases group with
  | pretty | stdout | help | output => rfl
  | trailing option => exact absurd (.trailing option) (h _)
  | unknown option => exact absurd (.unknown option) (h _)
  | positional argument =>
    exact if_neg (by simp [hinput.resolve_right nofun])

/-- Groups without a fault are all read, whatever is behind them. -/
theorem readAll_of_isFaultless (hspelled : ∀ group ∈ groups, group.IsSpelled)
    (h : IsFaultless groups) (rest : List String) :
    readAll empty (groups.flatMap words ++ rest) = readAll (ofGroups groups) rest := by
  induction groups using List.reverseRecOn generalizing rest with
  | nil => rfl
  | append_singleton front group ih =>
    obtain ⟨hfront, hgroup⟩ := isFaultless_concat.mp h
    have hspelled_front : ∀ group ∈ front, group.IsSpelled := fun other hother =>
      hspelled other (List.mem_append_left _ hother)
    have hspelled_group := hspelled group (List.mem_append_right _ List.mem_cons_self)
    calc readAll empty ((front ++ [group]).flatMap words ++ rest)
        = readAll empty (front.flatMap words ++ (group.words ++ rest)) := by simp
      _ = readAll (ofGroups front) (group.words ++ rest) := ih hspelled_front hfront _
      _ = readAll (ofGroups (front ++ [group])) rest :=
        readAll_of_not_isFaulty hspelled_group hgroup

/-- The first faulty group is reported. -/
theorem readAll_of_firstError (hcompose : Compose groups arguments)
    (h : FirstError groups error) : readAll empty arguments = .error error := by
  obtain ⟨before, group, after, rfl, hbefore, hfaulty⟩ := h
  have hspelled : ∀ other ∈ before, other.IsSpelled := fun other hother =>
    hcompose.spelled other (List.mem_append_left _ hother)
  have hcomplete : after.flatMap words = [] ∨ ∀ option, group ≠ trailing option := by
    rcases after with - | ⟨next, after⟩
    · exact .inl rfl
    · right
      rintro option rfl
      refine hcompose.complete option ?_
      rw [List.dropLast_append_cons]
      simp
  have hgroup := hcompose.spelled group (by simp)
  rw [← hcompose.words_eq, List.flatMap_append, readAll_of_isFaultless hspelled hbefore,
    List.flatMap_cons, readAll_of_isFaulty hgroup hfaulty hcomplete]

/-- Standard output and an output path are both asked for exactly if the groups are in conflict. -/
theorem conflict_iff :
    ((ofGroups groups).toStdout && (ofGroups groups).output.isSome) = true ↔ Conflict groups := by
  rw [Bool.and_eq_true, toStdout_ofGroups, isSome_output_ofGroups]
  constructor
  · rintro ⟨⟨spelling, hspelling⟩, option, path, hpath⟩
    exact ⟨spelling, option, path, hspelling, hpath⟩
  · rintro ⟨spelling, option, path, hspelling, hpath⟩
    exact ⟨⟨spelling, hspelling⟩, option, path, hpath⟩

/-- Groups without fault are all read, and only then is it looked for a conflict. -/
theorem read_of_isFaultless (hcompose : Compose groups arguments) (h : IsFaultless groups) :
    read arguments =
      if (ofGroups groups).toStdout && (ofGroups groups).output.isSome
      then .error .stdoutWithOutput else .ok (ofGroups groups) := by
  have hall := readAll_of_isFaultless hcompose.spelled h []
  rw [List.append_nil, hcompose.words_eq] at hall
  rw [read, hall]
  rfl

/-- Reading gives the error of the first faulty group. -/
theorem read_of_firstError (hcompose : Compose groups arguments) (h : FirstError groups error) :
    read arguments = .error error := by
  rw [read, readAll_of_firstError hcompose h]

/-- Arguments are understood if no group is faulty and the output goes to one place. -/
theorem read_eq_ok_iff (hcompose : Compose groups arguments) (all : Arguments) :
    read arguments = .ok all ↔ IsFaultless groups ∧ ¬ Conflict groups ∧ all = ofGroups groups := by
  constructor
  · intro h
    rcases isFaultless_or_firstError groups with hfaultless | ⟨error, hfault⟩
    · rw [read_of_isFaultless hcompose hfaultless] at h
      split_ifs at h with hconflict
      exact ⟨hfaultless, fun hboth => hconflict (conflict_iff.mpr hboth), (Except.ok.inj h).symm⟩
    · rw [read_of_firstError hcompose hfault] at h
      cases h
  · rintro ⟨hfaultless, hconflict, rfl⟩
    rw [read_of_isFaultless hcompose hfaultless, if_neg fun h => hconflict (conflict_iff.mp h)]

/-- Reading fails with the error of the first faulty group, or else with a conflict of the
groups. -/
theorem read_eq_error_iff (hcompose : Compose groups arguments) (error : ArgumentsError) :
    read arguments = .error error ↔
      FirstError groups error ∨
        error = .stdoutWithOutput ∧ IsFaultless groups ∧ Conflict groups := by
  constructor
  · intro h
    rcases isFaultless_or_firstError groups with hfaultless | ⟨other, hfault⟩
    · rw [read_of_isFaultless hcompose hfaultless] at h
      split_ifs at h with hconflict
      exact .inr ⟨(Except.error.inj h).symm, hfaultless, conflict_iff.mp hconflict⟩
    · rw [read_of_firstError hcompose hfault] at h
      exact .inl (Except.error.inj h ▸ hfault)
  · rintro (hfault | ⟨rfl, hfaultless, hconflict⟩)
    · exact read_of_firstError hcompose hfault
    · rw [read_of_isFaultless hcompose hfaultless, if_pos (conflict_iff.mpr hconflict)]

/-- Groups in another order have the same faults, and without a fault they ask for the same. -/
theorem read_eq_ok_iff_of_rearranges (hcompose : Compose groups arguments)
    (h : Rearranges others groups) (all : Arguments) :
    read (others.flatMap words) = .ok all ↔ read arguments = .ok all := by
  have hothers := h.compose hcompose
  have hfaultless := isFaultless_iff_of_perm h.perm
  have hconflict := conflict_iff_of_perm h.perm
  rw [read_eq_ok_iff hothers, read_eq_ok_iff hcompose, hfaultless, hconflict]
  refine and_congr_right fun hgroups => ?_
  rw [ofGroups_eq_of_rearranges h hgroups]

/-- What is read from a list of arguments that is made up of groups. -/
structure ReadsGroups (arguments : List String) (groups : List ArgumentGroup) : Prop where
  composed : Compose groups arguments
  unique : ∀ others, Compose others arguments → others = groups
  ok_iff : ∀ all, read arguments = .ok all ↔
    IsFaultless groups ∧ ¬ Conflict groups ∧ all = ofGroups groups
  error_iff : ∀ error, read arguments = .error error ↔
    FirstError groups error ∨ error = .stdoutWithOutput ∧ IsFaultless groups ∧ Conflict groups
  rearranged : ∀ others, Rearranges others groups →
    Compose others (others.flatMap words) ∧
      ∀ all, read (others.flatMap words) = .ok all ↔ read arguments = .ok all

/-- Every command line is a row of groups in one way, and what is read is told by the groups: it is
understood exactly if no group is faulty and the output goes to one place, whatever the order, and
otherwise the first faulty group is reported. -/
theorem readsGroups_ofArguments (arguments : List String) :
    ReadsGroups arguments (ofArguments arguments) where
  composed := compose_ofArguments arguments
  unique _ := eq_ofArguments
  ok_iff := read_eq_ok_iff (compose_ofArguments arguments)
  error_iff := read_eq_error_iff (compose_ofArguments arguments)
  rearranged _ h := ⟨h.compose (compose_ofArguments arguments),
    read_eq_ok_iff_of_rearranges (compose_ofArguments arguments) h⟩

end Arguments

end JsonTemplate
