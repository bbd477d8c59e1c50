import JsonTemplate.Document
import JsonTemplate.Proofs.Json.Members
import JsonTemplate.Proofs.Json.Parsing

/-!
# The values of JSON texts

Building the tree of a supported JSON text gives the value that the text means. Only negated
numbers are evaluated; everything else is built as it stands. No bindings are made, so what is
built before a part makes no difference to it.
-/

namespace JsonTemplate

/-- A computation on the bindings that gives a result and leaves no bindings. -/
def Builds {α : Type} (run : Build α) (result : α) : Prop :=
  run .empty = some (.ok result, .empty)

/-- A computation that builds goes on with what has been built. -/
theorem Builds.bind {α β : Type} {run : Build α} {next : α → Build β} {first : α} {result : β}
    (h : Builds run first) (hnext : Builds (next first) result) :
    Builds (run >>= next) result := by
  rw [Builds, Run.bind_apply, h]
  exact hnext

/-- A result is built as it is. -/
theorem builds_pure {α : Type} (result : α) : Builds (pure result) result := rfl

/-- An expression that only gives a value is built as that value. -/
theorem builds_building {evaluate : This → Eval Value} {this : This} {value : Value} {json : Json}
    (h : ∀ frame, evaluate none frame = some (.ok value, frame)) (hjson : value.toJson = .ok json) :
    Builds (Meaning.building evaluate .root this) json := by
  have hstart : Builds (Meaning.start .root) ⟨⟩ := rfl
  have hvalue : Builds (Build.inFrame (evaluate none)) value := by
    rw [Builds, Build.inFrame, Run.focus, h]
    rfl
  have hjson : Builds (Meaning.jsonOf value) json := by
    rw [Builds, Meaning.jsonOf, Run.lift_apply, hjson]
  exact hstart.bind (hvalue.bind hjson)

namespace NumberSpelling

/-- The value of the unsigned number. -/
def magnitude (number : NumberSpelling) : Value :=
  if number.numeral.isFloat then .float number.numeral.double
  else .integer (.ofInt (readDigits number.numeral.whole))

/-- The unsigned number is evaluated to its value. -/
theorem evaluate_magnitudeTree (number : NumberSpelling) (rounds : Nat) (this : This)
    (frame : Frame) : (number.magnitudeTree.meaning rounds).evaluate this frame =
      some (.ok number.magnitude, frame) := by
  unfold magnitudeTree magnitude
  split <;> rfl

/-- A number between the least and the greatest integer is an integer. -/
theorem integer?_of_bounds {n : Int} (hle : -2 ^ 63 ≤ n) (hlt : n < 2 ^ 63) :
    integer? n = some (.ofInt n) := by
  rw [integer?_eq, if_pos ⟨hle, hlt⟩]

/-- Negating the unsigned number gives the number with its sign. -/
theorem neg_magnitude {number : NumberSpelling} (h : number.Supported)
    (hnegative : number.negative)
    (hnegated : number.numeral.isFloat ∨ readDigits number.numeral.whole ≠ 2 ^ 63) :
    ∃ value, number.magnitude.neg = .ok value ∧ value.toJson = .ok number.value := by
  by_cases hfloat : number.numeral.isFloat
  · rw [Supported, if_pos hfloat] at h
    refine ⟨.float number.numeral.double.neg, ?_, ?_⟩
    · rw [magnitude, if_pos hfloat, Value.neg]
    · have hfinite : number.numeral.double.neg.isFinite = true := h
      rw [Value.toJson, if_pos hfinite, NumberSpelling.value, if_pos hfloat, double,
        if_pos hnegative]
  · have hle := readDigits_le h hfloat
    have hlt : readDigits number.numeral.whole < 2 ^ 63 :=
      Nat.lt_of_le_of_ne hle (hnegated.resolve_left hfloat)
    have hmagnitude := Int64.toInt_ofInt_of_le
      (n := (readDigits number.numeral.whole : Int)) (by omega) (by omega)
    refine ⟨.integer (.ofInt number.integer), ?_, ?_⟩
    · rw [magnitude, if_neg hfloat, Value.neg, Value.ofWhole, hmagnitude,
        integer?_of_bounds (by omega) (by omega), integer, if_pos hnegative]
    · rw [Value.toJson, NumberSpelling.value, if_neg hfloat]

/-- A supported number is built as its value. -/
theorem builds_tree {number : NumberSpelling} (h : number.Supported) (rounds : Nat)
    (this : This) : Builds ((number.tree.meaning rounds).build .root this) number.value := by
  rw [tree]
  by_cases hnegative : number.negative
  · rw [if_pos hnegative]
    by_cases hnegated : number.numeral.isFloat ∨ readDigits number.numeral.whole ≠ 2 ^ 63
    · rw [if_pos hnegated]
      obtain ⟨value, hneg, hjson⟩ := neg_magnitude h hnegative hnegated
      rw [Node.meaning, Meaning.negate, Meaning.ofExpression]
      dsimp only
      refine builds_building (fun frame => ?_) hjson
      rw [Run.bind_apply, evaluate_magnitudeTree]
      change Run.lift number.magnitude.neg frame = _
      rw [Run.lift_apply, hneg]
    · obtain ⟨hfloat, hleast⟩ := not_or.mp hnegated
      rw [not_not] at hleast
      rw [if_neg hnegated, NumberSpelling.value, if_neg hfloat, integer, if_pos hnegative, hleast]
      rfl
  · rw [if_neg hnegative]
    by_cases hfloat : number.numeral.isFloat
    · rw [Supported, if_pos hfloat] at h
      rw [magnitudeTree, NumberSpelling.value, if_pos hfloat, if_pos hfloat, double,
        if_neg hnegative, Node.meaning, Meaning.ofExpression]
      dsimp only
      have hjson : (Value.float number.numeral.double).toJson =
          .ok (.float number.numeral.double) := by
        rw [Value.toJson, if_pos h]
      exact builds_building (fun _ => rfl) hjson
    · rw [magnitudeTree, NumberSpelling.value, if_neg hfloat, if_neg hfloat, integer,
        if_neg hnegative]
      exact builds_pure _

end NumberSpelling

namespace Spelling

/-- A part is built as what it stands for, items collected and members added to those already
there. -/
def IsBuilt : {part : Part} → Spelling part → Prop
  | .value, value => ∀ rounds this,
      Builds ((Node.meaning rounds value.tree).build .root this) (value.value : Json)
  | .items, items => ∀ rounds,
      Builds (Meaning.collect (·.build .root none) (Node.meanings rounds items.tree))
        (items.value : List Json)
  | .members, members => ∀ rounds sofar,
      Builds (Meaning.buildMembers .root sofar (Node.memberMeanings rounds members.tree))
        (.object (Json.insertMembers sofar members.value))

/-- A supported part is built as what it stands for. -/
theorem isBuilt {part : Part} (spelling : Spelling part) (h : spelling.Supported) :
    spelling.IsBuilt := by
  induction spelling with
  | null => exact fun _ _ => builds_pure _
  | boolean value => exact fun _ _ => builds_pure _
  | number spelled => exact fun rounds this => NumberSpelling.builds_tree h rounds this
  | string units => exact fun _ _ => builds_pure _
  | emptyArray inside => exact fun _ _ => (builds_pure []).bind (builds_pure _)
  | array items ih => exact fun rounds _ => (ih h rounds).bind (builds_pure _)
  | emptyObject inside => exact fun _ _ => builds_pure _
  | object members ih =>
    intro rounds this
    have hmembers := ih h rounds []
    rw [Json.insertMembers_eq_mergeMembers] at hmembers
    exact hmembers
  | lastItem before value after ih =>
    exact fun rounds => (ih h rounds none).bind ((builds_pure []).bind (builds_pure _))
  | item before value after rest ih ihRest =>
    exact fun rounds => (ih h.1 rounds none).bind ((ihRest h.2 rounds).bind (builds_pure _))
  | lastMember before name beforeColon afterColon value after ih =>
    exact fun rounds sofar => (ih h.2 rounds (some sofar)).bind (builds_pure _)
  | member before name beforeColon afterColon value after rest ih ihRest =>
    exact fun rounds sofar => (ih h.2.1 rounds (some sofar)).bind (ihRest h.2.2 rounds _)

end Spelling

end JsonTemplate
