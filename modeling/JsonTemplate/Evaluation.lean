import JsonTemplate.Evaluation.Meaning

/-!
# Evaluating trees

The meaning of a node is put together from the meanings of its parts. The number of rounds
limits how often each `while` loop may go round; where no loop reaches the limit, it has no
effect on the outcome.

An interpreter builds one document after the other. It keeps the bindings of the running
block, and drops them at the end of each document.
-/

namespace JsonTemplate

namespace Node

mutual

/-- The meaning of a node, with a limit on the rounds of each loop. -/
def meaning (rounds : Nat) : Node → Meaning
  | object members => .object (memberMeanings rounds members)
  | array elements => .array (meanings rounds elements)
  | string text => .literal (.text text) (.string text)
  | integer value => .literal (.integer value) (.integer value)
  | float value => .ofExpression fun _ => return .float value
  | boolean value => .literal (.boolean value) (.boolean value)
  | null => .literal .null .null
  | lookup name => .lookup name
  | assign name value => .assign name (meaning rounds value)
  | binary operator left right =>
    .binary operator (meaning rounds left) (meaning rounds right)
  | negate operand => .negate (meaning rounds operand)
  | this path => .this path
  | block statements => .block (meanings rounds statements)
  | return_ value => .returning (meaning rounds value)
  | cond cases otherwise =>
    .cond (caseMeanings rounds cases) (optionMeaning rounds otherwise)
  | while_ condition body => .while_ rounds (meaning rounds condition) (meaning rounds body)
  | for_ name start stop step body =>
    .for_ name (meaning rounds start) (meaning rounds stop) (optionMeaning rounds step)
      (meaning rounds body)
  | break_ => .leave .break_ .breakOutsideLoop
  | continue_ => .leave .continue_ .continueOutsideLoop

/-- The meanings of nodes. -/
def meanings (rounds : Nat) : List Node → List Meaning
  | [] => []
  | node :: rest => meaning rounds node :: meanings rounds rest

/-- The meanings of members, each with its name. -/
def memberMeanings (rounds : Nat) : List (String × Node) → List (String × Meaning)
  | [] => []
  | (name, node) :: rest => (name, meaning rounds node) :: memberMeanings rounds rest

/-- The meanings of the conditions and bodies of cases. -/
def caseMeanings (rounds : Nat) : List (Node × Node) → List (Meaning × Meaning)
  | [] => []
  | (condition, body) :: rest =>
    (meaning rounds condition, meaning rounds body) :: caseMeanings rounds rest

/-- The meaning of a node that may be missing. -/
def optionMeaning (rounds : Nat) : Option Node → Option Meaning
  | none => none
  | some node => some (meaning rounds node)

end

end Node

/-- A builder of documents, with the bindings of the block that is running. -/
structure Interpreter where
  environment : Environment

namespace Interpreter

/-- An interpreter that has no bindings yet. -/
def new : Interpreter := ⟨.empty⟩

/-- More rounds than a loop can go through in any time there is. -/
def ampleRounds : Nat := 2 ^ 62

/-- Builds a document and drops all bindings; nothing if a loop reaches the limit. -/
def build (interpreter : Interpreter) (rounds : Nat) (document : Node) :
    Option (Except EvalError Json × Interpreter) :=
  ((document.meaning rounds).build .root none interpreter.environment).map
    fun (result, _) => (result, ⟨.empty⟩)

end Interpreter

end JsonTemplate
