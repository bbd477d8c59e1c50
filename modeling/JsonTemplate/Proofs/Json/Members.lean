import Mathlib.Data.List.Basic
import Mathlib.Data.List.Induction
import JsonTemplate.Proofs.Json.Spelling

/-!
# Members with repeated names

Members that are given one after the other keep the order in which their names first came, and
each name has the value it was given last. The list that results is fixed by its names and by
what is looked up in it, because no name occurs twice.
-/

namespace JsonTemplate.Json

/-- The names of members in order. -/
def names (members : List (String × Json)) : List String := members.map (·.1)

/-- Gives names their values one after the other. -/
def insertMembers (members more : List (String × Json)) : List (String × Json) :=
  more.foldl (fun sofar member => insertMember member.1 member.2 sofar) members

/-- The first member decides for its own name only. -/
theorem lookup_cons_eq (name : String) (value : Json) (members : List (String × Json))
    (sought : String) : ((name, value) :: members).lookup sought =
      if sought = name then some value else members.lookup sought := by
  rw [List.lookup_cons]
  by_cases hsought : sought = name
  · rw [hsought, beq_self_eq_true, if_pos rfl]
  · rw [beq_eq_false_iff_ne.mpr hsought, if_neg hsought]

/-- A new name comes last, and a name that has a value keeps its place. -/
theorem names_insertMember (name : String) (value : Json) (members : List (String × Json)) :
    names (insertMember name value members) =
      if name ∈ names members then names members else names members ++ [name] := by
  induction members with
  | nil => rfl
  | cons member rest ih =>
    obtain ⟨other, old⟩ := member
    rw [insertMember]
    by_cases hname : other = name
    · rw [if_pos hname]
      simp [names, hname]
    · rw [if_neg hname]
      change other :: names (insertMember name value rest) = _
      rw [ih]
      change _ = if name ∈ other :: names rest then other :: names rest
        else other :: (names rest ++ [name])
      have hmem : name ∈ other :: names rest ↔ name ∈ names rest := by
        rw [List.mem_cons, or_iff_right (Ne.symm hname)]
      by_cases hrest : name ∈ names rest
      · rw [if_pos hrest, if_pos (hmem.mpr hrest)]
      · rw [if_neg hrest, if_neg (mt hmem.mp hrest)]

/-- The name that was given a value has it, and the others keep theirs. -/
theorem lookup_insertMember (name : String) (value : Json) (members : List (String × Json))
    (sought : String) : (insertMember name value members).lookup sought =
      if sought = name then some value else members.lookup sought := by
  induction members with
  | nil => rw [insertMember, lookup_cons_eq]
  | cons member rest ih =>
    obtain ⟨other, old⟩ := member
    rw [insertMember]
    by_cases hname : other = name
    · rw [if_pos hname, lookup_cons_eq, lookup_cons_eq, hname]
      split <;> rfl
    · rw [if_neg hname, lookup_cons_eq, lookup_cons_eq, ih]
      by_cases hsought : sought = name
      · rw [hsought, if_neg (Ne.symm hname), if_pos rfl, if_pos rfl]
      · rw [if_neg hsought, if_neg hsought]

/-- No name is given a second place. -/
theorem nodup_insertMember {name : String} {value : Json} {members : List (String × Json)}
    (h : (names members).Nodup) : (names (insertMember name value members)).Nodup := by
  rw [names_insertMember]
  split
  · exact h
  · rename_i hname
    refine List.nodup_append.mpr ⟨h, List.pairwise_singleton _ name, fun a ha b hb hab => ?_⟩
    rw [hab, List.mem_singleton.mp hb] at ha
    exact hname ha

/-- Members with distinct names are their names with what each of them is looked up as. -/
theorem eq_filterMap_lookup {members : List (String × Json)} (h : (names members).Nodup) :
    members = (names members).filterMap fun name => (members.lookup name).map (name, ·) := by
  induction members with
  | nil => rfl
  | cons member rest ih =>
    obtain ⟨name, value⟩ := member
    obtain ⟨hname, hrest⟩ := List.nodup_cons.mp h
    change _ = List.filterMap _ (name :: names rest)
    rw [List.filterMap_cons, List.lookup_cons_self, Option.map_some]
    dsimp only
    congr 1
    refine (ih hrest).trans (List.filterMap_congr fun other hother => ?_)
    have hne : other ≠ name := ne_of_mem_of_not_mem hother hname
    rw [lookup_cons_eq, if_neg hne]

/-- Members are put in one after the other. -/
theorem insertMembers_snoc (members more : List (String × Json)) (member : String × Json) :
    insertMembers members (more ++ [member]) =
      insertMember member.1 member.2 (insertMembers members more) :=
  List.foldl_concat ..

/-- Putting in two lists of members is putting in one after the other. -/
theorem insertMembers_append (members more others : List (String × Json)) :
    insertMembers members (more ++ others) = insertMembers (insertMembers members more) others :=
  List.foldl_append

/-- Names stay distinct when members are put in. -/
theorem nodup_insertMembers {members : List (String × Json)} (h : (names members).Nodup)
    (more : List (String × Json)) : (names (insertMembers members more)).Nodup := by
  induction more generalizing members with
  | nil => exact h
  | cons member rest ih => exact ih (nodup_insertMember h)

/-- Names that have values keep their places at the front. -/
theorem names_prefix_insertMembers (members more : List (String × Json)) :
    names members <+: names (insertMembers members more) := by
  induction more generalizing members with
  | nil => exact List.prefix_rfl
  | cons member rest ih =>
    have hmember : names members <+: names (insertMember member.1 member.2 members) := by
      rw [names_insertMember]
      split
      · exact List.prefix_rfl
      · exact List.prefix_append _ _
    exact hmember.trans (ih _)

/-- The names are in the order in which they first come. -/
theorem names_insertMembers (members : List (String × Json)) :
    names (insertMembers [] members) = (names members).eraseDups := by
  induction members using List.reverseRecOn with
  | nil => rfl
  | append_singleton members member ih =>
    rw [insertMembers_snoc, names_insertMember, ih, names, names, List.map_append,
      List.eraseDups_append]
    simp only [List.mem_eraseDups, List.map_cons, List.map_nil, List.removeAll]
    by_cases hname : member.1 ∈ members.map (·.1)
    · rw [if_pos hname, List.filter_cons_of_neg (by simpa using hname), List.filter_nil,
        List.eraseDups_nil, List.append_nil]
    · rw [if_neg hname, List.filter_cons_of_pos (by simpa using hname), List.filter_nil,
        List.eraseDups_cons, List.filter_nil, List.eraseDups_nil]

/-- A name has the value that it is given last, or else the one that it had. -/
theorem lookup_insertMembers (members more : List (String × Json)) (sought : String) :
    (insertMembers members more).lookup sought =
      (more.reverse.lookup sought).or (members.lookup sought) := by
  induction more using List.reverseRecOn with
  | nil => rfl
  | append_singleton more member ih =>
    rw [insertMembers_snoc, lookup_insertMember, ih, List.reverse_append, List.reverse_singleton,
      List.singleton_append, lookup_cons_eq]
    by_cases hsought : sought = member.1
    · rw [if_pos hsought, if_pos hsought, Option.some_or]
    · rw [if_neg hsought, if_neg hsought]

/-- A name that is given no value keeps the one that it has. -/
theorem lookup_insertMembers_of_notMem {name : String} {more : List (String × Json)}
    (h : name ∉ names more) (members : List (String × Json)) :
    (insertMembers members more).lookup name = members.lookup name := by
  induction more generalizing members with
  | nil => rfl
  | cons member rest ih =>
    obtain ⟨hname, hrest⟩ := not_or.mp (mt List.mem_cons.mpr h)
    exact (ih hrest _).trans ((lookup_insertMember ..).trans (if_neg hname))

/-- Giving members one after the other merges those of one name. -/
theorem insertMembers_eq_mergeMembers (members : List (String × Json)) :
    insertMembers [] members = mergeMembers members := by
  have hlookup (sought : String) :
      (insertMembers [] members).lookup sought = members.reverse.lookup sought := by
    rw [lookup_insertMembers, List.lookup_nil, Option.or_none]
  have hnodup : (names (insertMembers [] members)).Nodup :=
    nodup_insertMembers (show (names []).Nodup from List.nodup_nil) members
  rw [mergeMembers, eq_filterMap_lookup hnodup, names_insertMembers, names]
  simp only [hlookup]

/-- A name without a value is added at the end. -/
theorem insertMember_of_notMem {name : String} {members : List (String × Json)}
    (h : name ∉ names members) (value : Json) :
    insertMember name value members = members ++ [(name, value)] := by
  induction members with
  | nil => rfl
  | cons member rest ih =>
    obtain ⟨hname, hrest⟩ := not_or.mp (mt List.mem_cons.mpr h)
    rw [insertMember, if_neg (Ne.symm hname), ih hrest, List.cons_append]

/-- Members whose names are all distinct are put in at the end. -/
theorem insertMembers_of_nodup {members more : List (String × Json)}
    (h : (names (members ++ more)).Nodup) : insertMembers members more = members ++ more := by
  induction more generalizing members with
  | nil => exact (List.append_nil _).symm
  | cons member rest ih =>
    have hname : member.1 ∉ names members := by
      rw [names, List.map_append, List.nodup_append] at h
      exact fun hmem => h.2.2 _ hmem _ List.mem_cons_self rfl
    change insertMembers (insertMember member.1 member.2 members) rest = _
    rw [insertMember_of_notMem hname]
    rw [List.append_cons] at h
    exact (ih h).trans (List.append_cons members member rest).symm

/-- Distinct names are merged to themselves. -/
theorem mergeMembers_of_nodup {members : List (String × Json)} (h : (names members).Nodup) :
    mergeMembers members = members := by
  rw [← insertMembers_eq_mergeMembers]
  exact insertMembers_of_nodup h

end JsonTemplate.Json
