import JsonTemplate.Proofs.Evaluation.Alike
import JsonTemplate.Proofs.Evaluation.Invariants

/-!
# The output and the loops of a running block

No statement reads what its block has put out: it adds values behind those that are there. It also
leaves as many loops around it as it has found, whether it ends with a result or with an error, and
it ends by leaving a loop only where there is one.

Both are facts about two runs, the second of which starts with more output in front, and both pass
from the parts of a node to the node. The bindings of the two runs are the same throughout.
-/

namespace JsonTemplate

/-- The ways in which a statement can end within so many loops. -/
def Flow.PossibleAt (depth : Nat) : Flow → Prop
  | proceed | return_ _ => True
  | break_ | continue_ => 0 < depth

/-- Outside of loops a statement ends normally or by returning a value. -/
theorem Flow.possibleAt_zero_iff {flow : Flow} :
    flow.PossibleAt 0 ↔ flow = .proceed ∨ ∃ value, flow = .return_ value := by
  cases flow <;> simp [PossibleAt]

/-- The frame with other values put out before its own. -/
def Frame.behind (frame : Frame) (front : Array Value) : Frame :=
  { frame with output := front ++ frame.output }

/-- A frame within so many loops, and the same frame with values in front of its output. -/
def Frame.Behind (front : Array Value) (depth : Nat) (frame other : Frame) : Prop :=
  frame.loopDepth = depth ∧ other = frame.behind front

/-- A computation that runs alike with values in front of the output, and counts loops right. -/
abbrev Eval.RunsBehind {α : Type} (front : Array Value) (depth : Nat) (P : α → Prop)
    (eval : Eval α) : Prop :=
  eval.Alike (Frame.Behind front depth) (fun _ => False) (fun _ => True) P eval

/-- The readings of a statement run alike with values in front of the output, and count loops
right. -/
structure Meaning.RunsBehind (meaning : Meaning) : Prop where
  evaluate : ∀ this front depth, (meaning.evaluate this).RunsBehind front depth fun _ => True
  execute : ∀ this front depth,
    (meaning.execute this).RunsBehind front depth (Flow.PossibleAt depth)

/-- Every computation is alike to itself from equal states. -/
theorem Run.Alike.refl {σ α : Type} {D : EvalError → Prop} (run : Run σ α) :
    run.Alike Eq D (fun _ => True) (fun _ => True) run := by
  rintro state _ rfl
  cases run state with
  | none => exact .unfinished
  | some outcome => exact .ended (admits_true outcome.1) rfl

/-- A computation that is alike to another one gives what is admitted. -/
theorem Run.Alike.admits {σ α : Type} {E : EvalError → Prop} {P : α → Prop} {run other : Run σ α}
    (h : run.Alike Eq (fun _ => False) E P other) {state after : σ} {result : Except EvalError α}
    (hrun : run state = some (result, after)) : Admits E P result := by
  have hends := h state state rfl
  rw [hrun] at hends
  generalize other state = outcome at hends
  cases hends with
  | ended hadmits _ => exact hadmits
  | diverted hfalse => exact hfalse.elim

namespace Eval

variable {α : Type} {front : Array Value} {depth : Nat} {P : α → Prop}

/-- Binding a name runs behind any output. -/
theorem define_runsBehind (name : String) (value : Value) :
    (define name value).RunsBehind front depth fun _ => True := by
  refine .modify ?_
  rintro frame _ ⟨hdepth, rfl⟩
  exact ⟨hdepth, rfl⟩

/-- Putting a value out runs behind any output. -/
theorem emit_runsBehind (value : Value) :
    (emit value).RunsBehind front depth fun _ => True := by
  refine .modify ?_
  rintro frame _ ⟨hdepth, rfl⟩
  refine ⟨hdepth, ?_⟩
  rw [Frame.behind, Frame.behind, Array.append_push]

/-- Looking up a name runs behind any output. -/
theorem lookup_runsBehind (name : String) :
    (lookup name).RunsBehind front depth fun _ => True := by
  refine .get_bind ?_
  rintro frame _ ⟨-, rfl⟩
  dsimp only [Frame.behind]
  split
  · exact .pure trivial
  · exact .throw trivial

/-- What works on the bindings alone runs alike from equal bindings. -/
theorem onEnvironment_runsBehind (build : Build α) :
    (onEnvironment build).RunsBehind front depth fun _ => True := by
  refine .focus ?_ ?_ (.refl build)
  · rintro frame _ ⟨-, rfl⟩
    rfl
  · rintro environment _ frame _ rfl ⟨hdepth, rfl⟩
    exact ⟨hdepth, rfl⟩

/-- A loop runs behind any output if what runs in it does, one loop deeper. -/
theorem inLoop_runsBehind {eval : Eval α} (h : eval.RunsBehind front (depth + 1) P) :
    (inLoop eval).RunsBehind front depth P := by
  refine .focus ?_ ?_ h
  · rintro frame _ ⟨hdepth, rfl⟩
    exact ⟨congrArg (· + 1) hdepth, rfl⟩
  · rintro inner _ frame _ ⟨hdepth, rfl⟩ -
    exact ⟨congrArg (· - 1) hdepth, rfl⟩

end Eval

namespace Meaning

/-- An expression runs behind any output if evaluating it does. -/
theorem ofExpression_runsBehind {evaluate : This → Eval Value}
    (h : ∀ this front depth, (evaluate this).RunsBehind front depth fun _ => True) :
    (ofExpression evaluate).RunsBehind where
  evaluate := h
  execute this front depth := alike_emitting trivial Eval.emit_runsBehind (h this front depth)

/-- A statement runs behind any output if executing it does. -/
theorem ofStatement_runsBehind {execute : This → Eval Flow}
    (h : ∀ this front depth, (execute this).RunsBehind front depth (Flow.PossibleAt depth)) :
    (ofStatement execute).RunsBehind where
  evaluate this front depth := alike_valueOf (h this front depth)
  execute := h

/-- A literal runs behind any output. -/
theorem literal_runsBehind (value : Value) (json : Json) : (literal value json).RunsBehind where
  evaluate _ _ _ := .pure trivial
  execute _ _ _ := alike_emitting trivial Eval.emit_runsBehind (.pure trivial)

/-- Leaving a loop runs behind any output. -/
theorem leave_runsBehind {flow : Flow} (hflow : ∀ depth, 0 < depth → flow.PossibleAt depth)
    (outside : EvalError) : (leave flow outside).RunsBehind := by
  refine ofStatement_runsBehind fun _ front depth => .get_bind ?_
  rintro frame _ ⟨hdepth, rfl⟩
  rw [show (frame.behind front).loopDepth = frame.loopDepth from rfl]
  split
  · rename_i hpositive
    exact .pure (hflow depth (hdepth ▸ hpositive))
  · exact .throw trivial

/-- The reading of a name runs behind any output. -/
theorem lookup_runsBehind (name : String) : (lookup name).RunsBehind :=
  ofExpression_runsBehind fun _ _ _ => Eval.lookup_runsBehind name

/-- A path runs behind any output. -/
theorem this_runsBehind (path : List Accessor) : (this path).RunsBehind :=
  ofExpression_runsBehind fun _ _ _ => alike_resolve (fun _ => trivial) fun _ => trivial

/-- A loop that counts runs behind any output if its bounds, its step and its body do. -/
theorem for_runsBehind (name : String) {start stop body : Meaning} {step : Option Meaning}
    (hstart : start.RunsBehind) (hstop : stop.RunsBehind)
    (hstep : ∀ given ∈ step, given.RunsBehind) (hbody : body.RunsBehind) :
    (for_ name start stop step body).RunsBehind := by
  refine ofStatement_runsBehind fun this front depth => Eval.inLoop_runsBehind ?_
  refine .bind (hstart.evaluate this front _) fun _ _ => .bind (.lift (admits_true _)) fun _ _ => ?_
  refine .bind (hstop.evaluate this front _) fun _ _ => .bind (.lift (admits_true _)) fun _ _ => ?_
  refine .bind (alike_stepOf (fun _ => trivial) ?_) fun step _ => ?_
  · cases step with
    | none => exact .none
    | some given => exact .some ((hstep given rfl).evaluate this front _)
  · split
    · exact .throw trivial
    · have hround (value : Value) :
          (Eval.define name value >>= fun _ => body.execute this).RunsBehind front (depth + 1)
            (Flow.PossibleAt (depth + 1)) :=
        .bind (Eval.define_runsBehind name value) fun _ _ => hbody.execute this front _
      exact alike_countLoop trivial (fun _ _ => trivial) name hround _ _ _

variable {part : Nat → Meaning}

/-- An array runs behind any output if its elements do. -/
theorem array_runsBehind {elements : List Node}
    (h : ∀ i < elements.length, (part i).RunsBehind) :
    (array (elements.mapIdx fun i _ => part i)).RunsBehind := by
  have hvalue (this : This) (front : Array Value) (depth : Nat) :
      (arrayValue (elements.mapIdx fun i _ => part i) this).RunsBehind front depth
        fun _ => True := by
    refine .bind (alike_collect (forall₂_mapIdx fun i hi => ?_)) fun _ _ => .pure trivial
    refine .bind ((h i hi).evaluate this front depth) fun value _ => ?_
    exact .lift (admits_true _)
  exact ⟨hvalue, fun this front depth =>
    alike_emitting trivial Eval.emit_runsBehind (hvalue this front depth)⟩

/-- Statements in a row run behind any output if each of them does. -/
theorem sequence_runsBehind {statements : List Node}
    (h : ∀ i < statements.length, (part i).RunsBehind) (this : This) (front : Array Value)
    (depth : Nat) :
    (sequence this (statements.mapIdx fun i _ => part i)).RunsBehind front depth
      (Flow.PossibleAt depth) :=
  alike_statements trivial
    (forall₂_mapIdx fun i hi => (h i hi).execute this front depth)

end Meaning

namespace Node

/-- A node whose parts run alike with values in front of the output does so itself. -/
theorem assemble_runsBehind (rounds : Nat) {node : Node} {part : Nat → Meaning}
    (h : ∀ i < node.parts.length, (part i).RunsBehind) :
    (node.assemble rounds part).RunsBehind := by
  cases node with
  | object members =>
    have hvalue {front : Array Value} {depth : Nat} (built : List (String × Meaning)) :
        (Meaning.objectValue built).RunsBehind front depth fun _ => True :=
      .bind (Eval.onEnvironment_runsBehind _) fun _ _ => .pure trivial
    exact ⟨fun _ _ _ => hvalue _, fun _ _ _ =>
      Meaning.alike_emitting trivial Eval.emit_runsBehind (hvalue _)⟩
  | array elements => exact Meaning.array_runsBehind h
  | block statements =>
    exact ⟨fun _ _ _ => Eval.onEnvironment_runsBehind _, Meaning.sequence_runsBehind h⟩
  | string | integer | boolean | null => exact Meaning.literal_runsBehind _ _
  | float value => exact Meaning.ofExpression_runsBehind fun _ _ _ => .pure trivial
  | lookup name => exact Meaning.lookup_runsBehind name
  | this path => exact Meaning.this_runsBehind path
  | break_ | continue_ => exact Meaning.leave_runsBehind (fun _ => id) _
  | assign name value =>
    refine Meaning.ofStatement_runsBehind fun this front depth => ?_
    refine .bind ((h 0 Nat.zero_lt_one).evaluate this front depth) fun value _ => ?_
    exact .bind (Eval.define_runsBehind name value) fun _ _ => .pure trivial
  | return_ value =>
    refine Meaning.ofStatement_runsBehind fun this front depth => ?_
    exact .bind ((h 0 Nat.zero_lt_one).evaluate this front depth) fun value _ => .pure trivial
  | negate operand =>
    refine Meaning.ofExpression_runsBehind fun this front depth => ?_
    refine .bind ((h 0 Nat.zero_lt_one).evaluate this front depth) fun operand _ => ?_
    exact .lift (admits_true _)
  | binary operator left right =>
    refine Meaning.ofExpression_runsBehind fun this front depth => ?_
    refine .bind ((h 0 Nat.zero_lt_two).evaluate this front depth) fun l _ => ?_
    refine .bind ((h 1 Nat.one_lt_two).evaluate this front depth) fun r _ => ?_
    exact .lift (admits_true _)
  | cond cases otherwise =>
    have hlength := length_parts_cond cases otherwise
    refine Meaning.ofStatement_runsBehind fun this front depth =>
      Meaning.alike_choose trivial (forall₂_mapIdx fun i hi => ?_) ?_
    · exact ⟨(h (2 * i) (by omega)).evaluate this front depth,
        (h (2 * i + 1) (by omega)).execute this front depth⟩
    · cases otherwise with
      | none => exact .none
      | some body =>
        exact .some ((h (2 * cases.length) (by simp [hlength])).execute this front depth)
  | while_ condition body =>
    refine Meaning.ofStatement_runsBehind fun this front depth => Eval.inLoop_runsBehind ?_
    exact Meaning.alike_whileLoop trivial (fun _ _ => trivial)
      ((h 0 Nat.zero_lt_two).evaluate this front (depth + 1))
      ((h 1 Nat.one_lt_two).execute this front (depth + 1)) rounds
  | for_ name start stop step body =>
    cases step with
    | none =>
      exact Meaning.for_runsBehind name (h 0 (by simp [parts])) (h 1 (by simp [parts])) nofun
        (h 2 (by simp [parts]))
    | some step =>
      exact Meaning.for_runsBehind name (h 0 (by simp [parts])) (h 1 (by simp [parts]))
        (fun _ hgiven => Option.mem_some.mp hgiven ▸ h 2 (by simp [parts]))
        (h 3 (by simp [parts]))

/-- Every node runs behind any output. -/
theorem runsBehind (rounds : Nat) (node : Node) : (node.meaning rounds).RunsBehind := by
  induction node using induction_parts with
  | step node ih =>
    rw [meaning_eq_assemble]
    refine assemble_runsBehind rounds fun i hi => ?_
    rw [meaningAt_of_getElem? (List.getElem?_eq_getElem hi)]
    exact ih _ (List.getElem_mem hi)

end Node

namespace Eval.RunsBehind

variable {α : Type} {front : Array Value} {depth : Nat} {P : α → Prop} {eval : Eval α}

/-- A computation that counts loops right keeps their number, also when it fails. -/
theorem keeps (h : eval.RunsBehind front depth P) :
    eval.Keeps (fun frame => frame.loopDepth = depth) P := by
  intro frame hframe result after hrun
  have hends := h frame _ ⟨hframe, rfl⟩
  rw [hrun] at hends
  generalize eval (frame.behind front) = other at hends
  cases hends with
  | diverted hfalse => exact hfalse.elim
  | ended hadmits hafter =>
    refine ⟨hafter.1, ?_⟩
    cases result with
    | ok value => exact hadmits
    | error error => trivial

end Eval.RunsBehind

end JsonTemplate
