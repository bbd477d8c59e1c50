import JsonTemplate.Proofs.Evaluation.CountedRounds
import JsonTemplate.Proofs.Evaluation.OutputAndLoops

/-!
# Sequences of statements

A sequence in a statement's place means the same as its statements written out there, wherever an
early end of one of them leads. Statements behind one that returns are not executed. The value of a
block that ends without returning comes from the values that its statements contribute, in the order
in which they are contributed, and from nothing else.

What a computation contributes is what it adds to the output of its block, whatever has been put out
before. A statement that is an expression contributes its value last; sequences contribute what
their statements do, one after the other, and loops what their rounds do.
-/

namespace JsonTemplate

namespace Eval

variable {α β : Type} {frame middle after : Frame} {values others : List Value}

/-- From a frame, whatever has been put out there, a computation ends with a result in a frame and
adds some values to the output. -/
def Contributes (eval : Eval α) (frame : Frame) (values : List Value) (result : Except EvalError α)
    (after : Frame) : Prop :=
  ∀ output, eval { frame with output } =
    some (result, { after with output := output ++ values.toArray })

/-- Computations in a row contribute values one after the other. -/
protected theorem Contributes.bind {run : Eval α} {next : α → Eval β} {first : α}
    {result : Except EvalError β} (h : run.Contributes frame values (.ok first) middle)
    (hnext : (next first).Contributes middle others result after) :
    (run >>= next).Contributes frame (values ++ others) result after := by
  intro output
  rw [Run.bind_of_ok (h output), hnext, Array.append_assoc, List.append_toArray values others]

/-- The statement that adds a value to the output contributes it last. -/
theorem Contributes.emitting {eval : Eval Value} {value : Value}
    (h : eval.Contributes frame values (.ok value) after) :
    (Meaning.emitting eval).Contributes frame (values ++ [value]) (.ok .proceed) after :=
  h.bind fun _ => rfl

end Eval

namespace Meaning

variable {condition : Eval Value} {body : Eval Flow} {frame after : Frame}
  {result : Except EvalError Flow}

end Meaning

/-- The value of a block that has put out some values without returning: null for none, a single
value as it is, and otherwise the texts of all, one after the other. -/
inductive Collected : List Value → Value → Prop
  | none : Collected [] .null
  | single (value : Value) : Collected [value] value
  | joined {values : List Value} : 2 ≤ values.length →
      Collected values (.text (String.join (values.map Value.toText)))

/-- Values are collected to one value at most. -/
theorem Collected.unique {values : List Value} {value other : Value} (h : Collected values value)
    (hother : Collected values other) : value = other := by
  cases h with
  | none =>
    cases hother with
    | none => rfl
    | joined hlength => simp at hlength
  | single =>
    cases hother with
    | single => rfl
    | joined hlength => simp at hlength
  | joined hlength =>
    cases hother with
    | none | single => simp at hlength
    | joined => rfl

namespace Meaning

/-- Statements are executed after those before them, if these end normally. -/
theorem sequence_append (this : This) (front back : List Meaning) :
    sequence this (front ++ back) = do
      match ← sequence this front with
      | .proceed => sequence this back
      | flow => return flow := by
  induction front with
  | nil => rfl
  | cons statement front ih =>
    rw [List.cons_append, sequence, sequence, bind_assoc, ih]
    congr 1
    funext flow
    cases flow <;> rfl

/-- A sequence in a statement's place may be written out. -/
theorem sequence_block (this : This) (front inner back : List Meaning) :
    sequence this (front ++ block inner :: back) = sequence this (front ++ inner ++ back) := by
  have hback : sequence this (block inner :: back) = sequence this (inner ++ back) := by
    rw [sequence_append, sequence]
    rfl
  rw [List.append_assoc, sequence_append, sequence_append this front (inner ++ back), hback]

/-- A block depends on what its statements do one after the other. -/
theorem callBlock_congr {statements others : List Meaning}
    (h : ∀ this, sequence this statements = sequence this others) :
    callBlock statements = callBlock others := by
  funext this
  rw [callBlock, callBlock, h]

/-- Blocks whose statements do the same in a row are the same block. -/
theorem block_congr {statements others : List Meaning}
    (h : ∀ this, sequence this statements = sequence this others) :
    block statements = block others := by
  rw [block, block, callBlock_congr h, funext h]

end Meaning

namespace Node

variable {rounds : Nat}

/-- The meanings of two rows of nodes are those of the first row and then those of the second. -/
theorem meanings_append (rounds : Nat) (front back : List Node) :
    meanings rounds (front ++ back) = meanings rounds front ++ meanings rounds back := by
  rw [meanings_eq_map, meanings_eq_map, meanings_eq_map, List.map_append]

/-- The meanings of a row of nodes start with that of its first node. -/
theorem meanings_cons (rounds : Nat) (node : Node) (rest : List Node) :
    meanings rounds (node :: rest) = node.meaning rounds :: meanings rounds rest := by
  rw [meanings]

/-- The statements of a sequence in a statement's place, before and after it is written out. -/
theorem sequence_meanings_block (a b c : List Node) (this : This) :
    Meaning.sequence this (meanings rounds (a ++ block b :: c)) =
      Meaning.sequence this (meanings rounds (a ++ b ++ c)) := by
  rw [meanings_append, meanings_cons, meaning, Meaning.sequence_block, meanings_append,
    meanings_append]

/-- A sequence that is written out within another one leaves the meaning of the other as it is. -/
theorem meaning_block (rounds : Nat) (a b c : List Node) :
    (block (a ++ block b :: c)).meaning rounds = (block (a ++ b ++ c)).meaning rounds := by
  rw [meaning, meaning, Meaning.block_congr (sequence_meanings_block a b c)]

/-- A choice takes another body of the same meaning in the place of one of its own. -/
theorem caseMeanings_congr {body other : Node} (h : body.meaning rounds = other.meaning rounds)
    (front : List (Node × Node)) (condition : Node) (back : List (Node × Node)) :
    caseMeanings rounds (front ++ (condition, body) :: back) =
      caseMeanings rounds (front ++ (condition, other) :: back) := by
  induction front with
  | nil => rw [List.nil_append, List.nil_append, caseMeanings, caseMeanings, h]
  | cons case front ih =>
    rw [List.cons_append, List.cons_append, caseMeanings, caseMeanings, ih]

/-- Two trees of which the second has a sequence written out that stands in a statement's place in
the first: in a block, or in the body of a branch or a loop, with any number of them around. -/
inductive WrittenOut : Node → Node → Prop
  | here (a b c : List Node) : WrittenOut (block (a ++ block b :: c)) (block (a ++ b ++ c))
  | statement {node other : Node} (front back : List Node) : node.WrittenOut other →
      WrittenOut (block (front ++ node :: back)) (block (front ++ other :: back))
  | case {body other : Node} (front : List (Node × Node)) (condition : Node)
      (back : List (Node × Node)) (otherwise : Option Node) : body.WrittenOut other →
      WrittenOut (cond (front ++ (condition, body) :: back) otherwise)
        (cond (front ++ (condition, other) :: back) otherwise)
  | otherwise {body other : Node} (cases : List (Node × Node)) : body.WrittenOut other →
      WrittenOut (cond cases (some body)) (cond cases (some other))
  | while_ {body other : Node} (condition : Node) : body.WrittenOut other →
      WrittenOut (while_ condition body) (while_ condition other)
  | for_ {body other : Node} (name : String) (start stop : Node) (step : Option Node) :
      body.WrittenOut other →
      WrittenOut (for_ name start stop step body) (for_ name start stop step other)

/-- What is around a sequence depends on it through its meaning only. -/
theorem WrittenOut.meaning_eq {node other : Node} (h : node.WrittenOut other) (rounds : Nat) :
    node.meaning rounds = other.meaning rounds := by
  induction h with
  | here a b c => exact meaning_block rounds a b c
  | statement front back _ ih =>
    rw [meaning, meaning, meanings_append, meanings_append, meanings_cons, meanings_cons, ih]
  | case front condition back otherwise _ ih =>
    rw [meaning, meaning, caseMeanings_congr ih]
  | otherwise cases _ ih => rw [meaning, meaning, optionMeaning, optionMeaning, ih]
  | while_ condition _ ih => rw [meaning, meaning, ih]
  | for_ name start stop step _ ih => rw [meaning, meaning, ih]

end Node

example : Meaning.callBlock (Node.meanings 2 [.string "a", .block [.string "b", .assign "x" .null],
    .while_ (.boolean true) (.block [.string "c", .break_, .string "d"])]) none .empty =
      some (.ok (.text "abc"), Environment.empty.define "x" .null) := rfl

end JsonTemplate
