import JsonTemplate.Proofs.Evaluation.CallsInTurn
import JsonTemplate.Proofs.Value.Finite

/-!
# Values that are JSON only where they must be

A value and a JSON value can say the same in two ways: a number, a text, a boolean or `null` is a
value by itself, or a fragment. Evaluation only ever uses the first way. Operators give scalars,
and whatever is built as JSON and used as a value again is taken apart first, so that fragments are
arrays and objects.

For such values nothing is lost in the conversion to JSON and back. Nor is it in the other
direction, for any JSON value that can be written, and the two ways to the text of a value agree.
-/

namespace JsonTemplate

namespace Value

/-- A value that is a fragment only if it is an array or an object. -/
def IsUnpacked : Value → Prop
  | fragment json => json.IsContainer
  | _ => True

variable {value : Value} {json : Json}

/-- A scalar is unpacked. -/
theorem IsScalar.isUnpacked (h : value.IsScalar) : value.IsUnpacked := by
  cases value with
  | fragment json => exact h.elim
  | _ => trivial

/-- A value that is made of JSON is unpacked. -/
theorem isUnpacked_ofJson (json : Json) : (ofJson json).IsUnpacked := by
  cases json <;> trivial

/-- Only a fragment that should be taken apart has no kind of its own. -/
theorem type_ne_json_iff : value.type ≠ .json ↔ value.IsUnpacked := by
  cases value with
  | fragment json => cases json <;> simp [type, IsUnpacked, Json.IsContainer]
  | _ => simp [type, IsUnpacked]

/-- The JSON in an unpacked fragment is an array or an object. -/
theorem IsUnpacked.container (h : (fragment json).IsUnpacked) :
    (∃ items, json = .array items) ∨ ∃ members, json = .object members := by
  cases json with
  | array items => exact .inl ⟨items, rfl⟩
  | object members => exact .inr ⟨members, rfl⟩
  | _ => exact h.elim

/-- An unpacked value comes back from its JSON. -/
theorem IsUnpacked.ofJson_of_toJson (h : value.IsUnpacked) (hjson : value.toJson = .ok json) :
    ofJson json = value := by
  cases value with
  | float x =>
    rw [toJson] at hjson
    split at hjson
    · cases hjson
      rfl
    · cases hjson
  | fragment inner =>
    cases hjson
    rcases h.container with ⟨items, rfl⟩ | ⟨members, rfl⟩ <;> rfl
  | _ =>
    cases hjson
    rfl

/-- The finite values that come back from JSON as they were are the unpacked ones. -/
theorem comesBack_iff (hfinite : value.IsFinite) :
    (∃ json, value.toJson = .ok json ∧ ofJson json = value) ↔ value.IsUnpacked := by
  constructor
  · rintro ⟨json, -, rfl⟩
    exact isUnpacked_ofJson json
  · intro h
    obtain ⟨json, hjson, -⟩ := exists_toJson hfinite
    exact ⟨json, hjson, h.ofJson_of_toJson hjson⟩

/-- Finite JSON comes back from the value that is made of it. -/
theorem toJson_ofJson (h : json.IsFinite) : (ofJson json).toJson = .ok json := by
  cases json with
  | float x => exact if_pos (Json.isFinite_float.mp h)
  | _ => rfl

/-- A value that is no text is joined to one as it is written in JSON. -/
theorem toText_eq_render (htext : value.isText = false) (hjson : value.toJson = .ok json) :
    value.toText = .ofList (json.render .compact) := by
  cases value with
  | text value => cases htext
  | float x =>
    rw [toJson] at hjson
    split at hjson
    · cases hjson
      rfl
    · cases hjson
  | boolean value =>
    cases hjson
    cases value <;> rfl
  | _ =>
    cases hjson
    rfl

/-- What unpacked values are good for: each has a kind, a condition looks only at its own form, it
comes back from JSON as it was, and its text is that of its JSON. -/
structure Transparent (value : Value) : Prop where
  type_ne : value.type ≠ .json
  truthy : ∀ json, value = fragment json →
    (∃ items, json = .array items ∧ value.isTruthy = !items.isEmpty) ∨
      ∃ members, json = .object members ∧ value.isTruthy = !members.isEmpty
  comesBack : value.IsFinite → ∃ json, value.toJson = .ok json ∧ ofJson json = value
  text : value.isText = false → ∀ json, value.toJson = .ok json →
    value.toText = .ofList (json.render .compact)

/-- What unpacked values are good for holds of each of them. -/
theorem IsUnpacked.transparent (h : value.IsUnpacked) : value.Transparent where
  type_ne := type_ne_json_iff.mpr h
  truthy := by
    rintro json rfl
    rcases h.container with ⟨items, rfl⟩ | ⟨members, rfl⟩
    · exact .inl ⟨items, rfl, rfl⟩
    · exact .inr ⟨members, rfl, rfl⟩
  comesBack hfinite := (comesBack_iff hfinite).mpr h
  text htext _ := toText_eq_render htext

end Value

/-- What an operation gives is unpacked. -/
theorem isUnpacked_of_operates {result : Except EvalError Value} (h : Value.Operates result) :
    IfOk Value.IsUnpacked result := by
  cases result with
  | ok value => exact Value.IsScalar.isUnpacked h
  | error error => trivial

/-- All operations give unpacked values, whatever JSON values are in use. -/
theorem stable_isUnpacked : Stable Value.IsUnpacked fun _ => True where
  integer _ := trivial
  text _ := trivial
  boolean _ := trivial
  null := trivial
  ofJson json _ := Value.isUnpacked_ofJson json
  toJson value _ := ifOk_true value.toJson
  apply operator left right _ _ := isUnpacked_of_operates (Value.operates_apply operator left right)
  neg operand _ := isUnpacked_of_operates (Value.operates_neg operand)
  array _ _ := trivial
  object_nil := trivial
  insertMember _ _ _ _ _ := trivial
  walk? _ _ _ _ _ := trivial

namespace Node

/-- A reading of a node in which all values have a property: those that are bound or put out when it
starts, those that are when it ends, and the one that it gives or returns. -/
structure HasOnly (V : Value → Prop) (rounds : Nat) (node : Node) (task : Task) : Prop where
  start : task.mode.StateAll V task.state
  outcome : ∀ result after, (node.meaning rounds).perform task = some (result, after) →
    task.mode.StateAll V after ∧ IfOk (task.mode.ResultAll V fun _ => True) result

/-- All values in a build are unpacked. -/
theorem Reached.hasOnly_isUnpacked {rounds : Nat} {node tree : Node} {task : Task}
    {place : List Nat} (h : node.Reached rounds task tree Interpreter.new.task place) :
    node.HasOnly Value.IsUnpacked rounds task := by
  have hstart : Interpreter.new.task.All Value.IsUnpacked fun _ => True :=
    ⟨This.all_none, Environment.all_empty⟩
  have htask := h.all stable_isUnpacked (fun _ _ => trivial) hstart
  exact ⟨htask.state, fun _ _ hperform =>
    (keeps_meaning stable_isUnpacked rounds fun _ _ => trivial).perform htask hperform⟩

end Node

/-- In building any tree all values that are bound, put out, returned or evaluated are fragments
only where they are arrays or objects. Such values come back from JSON as they were if they are
finite, and finite JSON values come back from values as they were. -/
theorem values_transparent (tree : Node) (rounds : Nat) :
    (∀ node task place, Node.Reached rounds node task tree Interpreter.new.task place →
      node.HasOnly Value.IsUnpacked rounds task) ∧
    (∀ value : Value, value.IsUnpacked → value.Transparent) ∧
    ∀ json : Json, json.IsFinite → (Value.ofJson json).toJson = .ok json :=
  ⟨fun _ _ _ => Node.Reached.hasOnly_isUnpacked, fun _ => Value.IsUnpacked.transparent,
    fun _ => Value.toJson_ofJson⟩

end JsonTemplate
