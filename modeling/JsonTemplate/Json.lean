import JsonTemplate.Node

/-!
# JSON values

Numbers are 64-bit integers or doubles and keep which of the two they are. The members of an
object are in the order in which their names first came; giving a name a new value leaves it
in its place.
-/

namespace JsonTemplate

/-- A JSON value. -/
inductive Json where
  | null
  | boolean (value : Bool)
  | integer (value : Int64)
  | float (value : Double)
  | string (text : String)
  | array (items : List Json)
  | object (members : List (String × Json))
deriving Repr, BEq

namespace Json

/-- Gives a name a value: in its place if it has one, at the end otherwise. -/
def insertMember (name : String) (value : Json) : List (String × Json) → List (String × Json)
  | [] => [(name, value)]
  | (other, old) :: rest =>
    if other = name then (name, value) :: rest
    else (other, old) :: insertMember name value rest

/-- What an accessor reaches in a value: an object's member or an array's item. -/
def step? : Accessor → Json → Option Json
  | .field name, object members => members.lookup name
  | .index position, array items => items[position]?
  | _, _ => none

/-- What a path reaches in a value. -/
def walk? : List Accessor → Json → Option Json
  | [], value => some value
  | accessor :: path, value => do walk? path (← step? accessor value)

end Json

end JsonTemplate
