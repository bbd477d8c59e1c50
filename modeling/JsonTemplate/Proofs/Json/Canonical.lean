import JsonTemplate.Proofs.Json.Members

/-!
# Canonical values

The values that have a text which means them: all doubles are finite, and no name occurs twice
in an object. Giving a member a value and following a path keep values canonical.

The depth at which a value stands is counted in the containers around it. Containers and
negative numbers are what a text can hold only down to a limited depth; the least integer is
spelled in one piece and does not count as a negative number here.
-/

namespace JsonTemplate.Json

/-- A value with finite doubles in which no object has two members of one name. -/
inductive Canonical : Json → Prop
  | null : Canonical null
  | boolean (value : Bool) : Canonical (boolean value)
  | integer (value : Int64) : Canonical (integer value)
  | float {value : Double} : value.isFinite → Canonical (float value)
  | string (text : String) : Canonical (string text)
  | array {items : List Json} : (∀ item ∈ items, Canonical item) → Canonical (array items)
  | object {members : List (String × Json)} : (names members).Nodup →
      (∀ member ∈ members, Canonical member.2) → Canonical (object members)

/-- The members of a canonical object. -/
def CanonicalMembers (members : List (String × Json)) : Prop := Canonical (.object members)

/-- The object without members is canonical. -/
theorem canonicalMembers_nil : CanonicalMembers [] := .object List.nodup_nil nofun

/-- The members after one has been put in are that one and others from before. -/
theorem mem_insertMember {name : String} {value : Json} {members : List (String × Json)}
    {member : String × Json} (h : member ∈ insertMember name value members) :
    member = (name, value) ∨ member ∈ members := by
  induction members with
  | nil => exact Or.inl (List.mem_singleton.mp h)
  | cons first rest ih =>
    obtain ⟨other, old⟩ := first
    rw [insertMember] at h
    split at h
    · rcases List.mem_cons.mp h with hnew | hrest
      · exact Or.inl hnew
      · exact Or.inr (List.mem_cons_of_mem _ hrest)
    · rcases List.mem_cons.mp h with hfirst | hrest
      · exact Or.inr (List.mem_cons.mpr (Or.inl hfirst))
      · exact (ih hrest).imp_right (List.mem_cons_of_mem _)

/-- Giving a member a canonical value keeps the members canonical. -/
theorem CanonicalMembers.insertMember {members : List (String × Json)} {value : Json}
    (h : CanonicalMembers members) (hvalue : value.Canonical) (name : String) :
    CanonicalMembers (insertMember name value members) := by
  cases h with
  | object hnodup hmembers =>
    refine .object (nodup_insertMember hnodup) fun member hmember => ?_
    rcases mem_insertMember hmember with rfl | hold
    · exact hvalue
    · exact hmembers member hold

/-- A name that is found is one of the members. -/
theorem mem_of_lookup {name : String} {value : Json} {members : List (String × Json)}
    (h : members.lookup name = some value) : (name, value) ∈ members := by
  obtain ⟨before, after, rfl, -⟩ := List.lookup_eq_some_iff.mp h
  exact List.mem_append_right _ List.mem_cons_self

/-- What an accessor reaches in a canonical value is canonical. -/
theorem Canonical.step? {accessor : Accessor} {json result : Json} (h : json.Canonical)
    (hstep : Json.step? accessor json = some result) : result.Canonical := by
  unfold Json.step? at hstep
  split at hstep
  · cases h with
    | object _ hmembers => exact hmembers _ (mem_of_lookup hstep)
  · cases h with
    | array hitems => exact hitems _ (List.mem_of_getElem? hstep)
  · cases hstep

/-- What a path reaches in a canonical value is canonical. -/
theorem Canonical.walk? {path : List Accessor} {json result : Json} (h : json.Canonical)
    (hwalk : Json.walk? path json = some result) : result.Canonical := by
  induction path generalizing json with
  | nil =>
    cases hwalk
    exact h
  | cons accessor path ih =>
    obtain ⟨next, hstep, hrest⟩ := Option.bind_eq_some_iff.mp hwalk
    exact ih (h.step? hstep) hrest

/-- Where a value stands in a value: the level is the number of containers around it. -/
inductive At (inner : Json) : Nat → Json → Prop
  | here : At inner 0 inner
  | array {level : Nat} {items : List Json} {item : Json} :
      item ∈ items → At inner level item → At inner (level + 1) (array items)
  | object {level : Nat} {members : List (String × Json)} {member : String × Json} :
      member ∈ members → At inner level member.2 → At inner (level + 1) (object members)

/-- An array or an object. -/
def IsContainer : Json → Prop
  | array _ | object _ => True
  | _ => False

/-- The values that count against the limit on nesting: containers, and negative numbers other
than the least integer. -/
def IsNested : Json → Prop
  | array _ | object _ => True
  | integer value => value.toInt < 0 ∧ value.toInt ≠ -2 ^ 63
  | float value => value.negative
  | _ => False

/-- No container and no negative number has more than 128 containers around it. -/
def IsShallow (json : Json) : Prop :=
  ∀ level inner, At inner level json → inner.IsNested → level ≤ 128

/-- Each container and each negative number stands at a level below the number of levels. -/
def Fits (json : Json) (levels : Nat) : Prop :=
  ∀ level inner, At inner level json → inner.IsNested → level < levels

/-- Nesting fits the limit just where it is shallow enough for the parser. -/
theorem fits_iff_isShallow (json : Json) : json.Fits 129 ↔ json.IsShallow :=
  forall₄_congr fun _ _ _ _ => Nat.lt_succ_iff

/-- A value without parts only needs a level if it is a negative number. -/
theorem fits_of_not_isContainer {json : Json} (h : ¬json.IsContainer) (levels : Nat) :
    json.Fits levels ↔ (json.IsNested → 0 < levels) := by
  constructor
  · exact fun hfits => hfits 0 json .here
  · intro hlevels level inner hat hnested
    cases hat with
    | here => exact hlevels hnested
    | array | object => exact absurd trivial h

/-- An array takes one level more than its items. -/
theorem fits_array (items : List Json) (levels : Nat) :
    (array items).Fits levels ↔ 0 < levels ∧ ∀ item ∈ items, item.Fits (levels - 1) := by
  constructor
  · intro hfits
    refine ⟨hfits 0 _ .here trivial, fun item hitem level inner hat hnested => ?_⟩
    have hlevel := hfits (level + 1) inner (.array hitem hat) hnested
    omega
  · rintro ⟨hpos, hitems⟩ level inner hat hnested
    cases hat with
    | here => exact hpos
    | array hitem hat =>
      have hlevel := hitems _ hitem _ inner hat hnested
      omega

/-- An object takes one level more than its members. -/
theorem fits_object (members : List (String × Json)) (levels : Nat) :
    (object members).Fits levels ↔
      0 < levels ∧ ∀ member ∈ members, member.2.Fits (levels - 1) := by
  constructor
  · intro hfits
    refine ⟨hfits 0 _ .here trivial, fun member hmember level inner hat hnested => ?_⟩
    have hlevel := hfits (level + 1) inner (.object hmember hat) hnested
    omega
  · rintro ⟨hpos, hmembers⟩ level inner hat hnested
    cases hat with
    | here => exact hpos
    | object hmember hat =>
      have hlevel := hmembers _ hmember _ inner hat hnested
      omega

end JsonTemplate.Json
