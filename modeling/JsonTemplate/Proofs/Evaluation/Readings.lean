import JsonTemplate.Evaluation
import JsonTemplate.Proofs.Node.Parts

/-!
# The readings of a node and of its parts

A node is evaluated, executed or built, and each of these readings is a computation. The meaning
of a node is put together from the meanings of its parts alone, so a part can be exchanged for any
other meaning and the node read again. Which readings of its parts a reading of a node uses is
fixed by the kind of the node: an object literal builds its members with an object to look at, an
array that is built hides the object from its elements, a block executes its statements, and all
other nodes pass on the object that they see.
-/

namespace JsonTemplate

/-- A mode of reading a node, with the object that is being built. -/
inductive Mode where
  | evaluate (this : This)
  | execute (this : This)
  | build (scope : Scope) (this : This)

namespace Mode

/-- What a reading works on: the frame of a block, or bindings alone. -/
def State : Mode → Type
  | evaluate _ | execute _ => Frame
  | build _ _ => Environment

/-- What a reading gives. -/
def Result : Mode → Type
  | evaluate _ => Value
  | execute _ => Flow
  | build _ _ => Json

/-- The object that a reading is given. -/
def this : Mode → This
  | evaluate this | execute this | build _ this => this

/-- The object that a reading shows to an expression. A part of the document that is built from
an expression sees none. -/
def object : Mode → This
  | evaluate this | execute this => this
  | build _ _ => none

/-- Where the building of a literal began that is met in a reading. -/
def scope : Mode → Scope
  | evaluate _ | execute _ => .nested
  | build scope _ => scope

/-- The bindings that a reading starts from. -/
def environment : (mode : Mode) → mode.State → Environment
  | evaluate _, frame | execute _, frame => Frame.environment frame
  | build _ _, environment => environment

end Mode

/-- The reading of a meaning in a mode. -/
def Meaning.read (meaning : Meaning) : (mode : Mode) → Run mode.State mode.Result
  | .evaluate this => meaning.evaluate this
  | .execute this => meaning.execute this
  | .build scope this => meaning.build scope this

namespace Node

/-- The meaning of a node whose parts have the given meanings, by their place in the node. -/
def assemble (rounds : Nat) (part : Nat → Meaning) : Node → Meaning
  | object members => .object (members.mapIdx fun i member => (member.1, part i))
  | array elements => .array (elements.mapIdx fun i _ => part i)
  | assign name _ => .assign name (part 0)
  | binary operator _ _ => .binary operator (part 0) (part 1)
  | negate _ => .negate (part 0)
  | block statements => .block (statements.mapIdx fun i _ => part i)
  | return_ _ => .returning (part 0)
  | cond cases otherwise =>
    .cond (cases.mapIdx fun i _ => (part (2 * i), part (2 * i + 1)))
      (otherwise.map fun _ => part (2 * cases.length))
  | while_ _ _ => .while_ rounds (part 0) (part 1)
  | for_ name _ _ none _ => .for_ name (part 0) (part 1) none (part 2)
  | for_ name _ _ (some _) _ => .for_ name (part 0) (part 1) (some (part 2)) (part 3)
  | string text => meaning rounds (string text)
  | integer value => meaning rounds (integer value)
  | float value => meaning rounds (float value)
  | boolean value => meaning rounds (boolean value)
  | null => meaning rounds null
  | lookup name => meaning rounds (lookup name)
  | this path => meaning rounds (this path)
  | break_ => meaning rounds break_
  | continue_ => meaning rounds continue_

/-- The meanings of the nodes of a list, by their place. -/
def meaningAt (rounds : Nat) (nodes : List Node) (i : Nat) : Meaning :=
  (nodes[i]?.getD null).meaning rounds

/-- The meaning at an index is that of the node there. -/
theorem meaningAt_of_getElem? {nodes : List Node} {i : Nat} {node : Node}
    (h : nodes[i]? = some node) (rounds : Nat) :
    meaningAt rounds nodes i = node.meaning rounds := by
  rw [meaningAt, h, Option.getD_some]

/-- The meanings of nodes are taken one by one. -/
theorem meanings_eq_map (rounds : Nat) (nodes : List Node) :
    meanings rounds nodes = nodes.map (meaning rounds) := by
  induction nodes with
  | nil => rfl
  | cons node rest ih => rw [meanings, ih, List.map_cons]

/-- The meanings of members are taken one by one. -/
theorem memberMeanings_eq_map (rounds : Nat) (members : List (String × Node)) :
    memberMeanings rounds members =
      members.map fun member => (member.1, member.2.meaning rounds) := by
  induction members with
  | nil => rfl
  | cons member rest ih => rw [memberMeanings, ih, List.map_cons]

/-- The meanings at the indices of some nodes are their meanings in turn. -/
theorem mapIdx_meaningAt (rounds : Nat) (nodes : List Node) :
    (nodes.mapIdx fun i _ => meaningAt rounds nodes i) = meanings rounds nodes := by
  rw [meanings_eq_map]
  apply List.ext_getElem
  · rw [List.length_mapIdx, List.length_map]
  · intro i hi _
    rw [List.length_mapIdx] at hi
    rw [List.getElem_mapIdx, List.getElem_map,
      meaningAt_of_getElem? (List.getElem?_eq_getElem hi)]

/-- The meanings at the indices of some members are their meanings in turn. -/
theorem mapIdx_memberMeaningAt (rounds : Nat) (members : List (String × Node)) :
    (members.mapIdx fun i member => (member.1, meaningAt rounds (members.map (·.2)) i)) =
      memberMeanings rounds members := by
  rw [memberMeanings_eq_map]
  apply List.ext_getElem
  · rw [List.length_mapIdx, List.length_map]
  · intro i hi _
    rw [List.length_mapIdx] at hi
    have hvalue : (members.map (·.2))[i]? = some members[i].2 := by
      rw [List.getElem?_map, List.getElem?_eq_getElem hi, Option.map_some]
    rw [List.getElem_mapIdx, List.getElem_map, meaningAt_of_getElem? hvalue]

/-- The meanings at every second index of the parts of a choice are those of its cases. -/
theorem mapIdx_caseMeaningAt (rounds : Nat) (cases : List (Node × Node)) (rest : List Node) :
    (cases.mapIdx fun i _ =>
        let parts := cases.flatMap (fun (condition, body) => [condition, body]) ++ rest
        (meaningAt rounds parts (2 * i), meaningAt rounds parts (2 * i + 1))) =
      caseMeanings rounds cases := by
  induction cases with
  | nil => rfl
  | cons case cases ih =>
    rw [caseMeanings, List.mapIdx_cons, ← ih]
    rfl

/-- Behind the cases of a choice stands what is left. -/
theorem meaningAt_otherwise (rounds : Nat) (cases : List (Node × Node)) (rest : List Node) :
    meaningAt rounds (cases.flatMap (fun (condition, body) => [condition, body]) ++ rest)
        (2 * cases.length) = meaningAt rounds rest 0 := by
  induction cases with
  | nil => rfl
  | cons case cases ih => exact ih

/-- The meaning of a node is put together from the meanings of its parts. -/
theorem meaning_eq_assemble (rounds : Nat) (node : Node) :
    node.meaning rounds = node.assemble rounds (meaningAt rounds node.parts) := by
  cases node with
  | object members => rw [assemble, parts, mapIdx_memberMeaningAt, meaning]
  | array elements => rw [assemble, parts, mapIdx_meaningAt, meaning]
  | block statements => rw [assemble, parts, mapIdx_meaningAt, meaning]
  | cond cases otherwise =>
    rw [assemble, parts, mapIdx_caseMeaningAt, meaningAt_otherwise, meaning]
    cases otherwise <;> rfl
  | for_ name start stop step body => cases step <;> rfl
  | _ => rfl

/-- A mode in which the reading of a node in a mode can read a part. -/
def Uses : Node → Mode → Mode → Prop
  | object _, mode, used => ∃ sofar, used = .build mode.scope (some sofar)
  | array _, .build scope _, used => used = .build scope none
  | block _, mode, used => used = .execute mode.this
  | _, mode, used => used = .evaluate mode.object ∨ used = .execute mode.object

end Node

/-- The result of a document. -/
def Interpreter.result (rounds : Nat) (interpreter : Interpreter) (document : Node) :
    Option (Except EvalError Json) :=
  (interpreter.build rounds document).map (·.1)

/-- The result of a document is what its root builds, whatever bindings it leaves. -/
theorem Interpreter.result_eq (rounds : Nat) (interpreter : Interpreter) (document : Node) :
    interpreter.result rounds document =
      ((document.meaning rounds).build .root none interpreter.environment).map (·.1) := by
  rw [result, build, Option.map_map]
  rfl

end JsonTemplate
