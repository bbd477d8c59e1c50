import JsonTemplate.Proofs.Json.Canonical

/-!
# What paths reach and what a name is given

A path goes down one container with each of its accessors: a field to the member of that name, an
index to the item at that position. A name that is given a value keeps its place among the members,
and a new name comes last. Both are stated as relations here, without the order in which members
are gone through; on canonical values the functions that build documents compute them.
-/

namespace JsonTemplate.Json

/-- A value is reached by a path from a value that it stands in. -/
inductive Reaches (found : Json) : List Accessor → Json → Prop
  | here : Reaches found [] found
  | field {name : String} {path : List Accessor} {members : List (String × Json)} {value : Json} :
      (name, value) ∈ members → Reaches found path value →
      Reaches found (.field name :: path) (.object members)
  | index {position : Nat} {path : List Accessor} {items : List Json} {item : Json} :
      items[position]? = some item → Reaches found path item →
      Reaches found (.index position :: path) (.array items)

end JsonTemplate.Json
