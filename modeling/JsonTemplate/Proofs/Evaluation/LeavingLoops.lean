import JsonTemplate.Proofs.Evaluation.CallsInTurn

/-!
# Leaving loops

A `break` or a `continue` leaves the nearest loop of its own block, or it is an error. The number of
loops around a statement is the same before and after it; a loop ends normally or by returning; and
the statements of a callable block start outside of all loops, so none that they could leave is
around the block. The errors of leaving a loop come from a `break` or a `continue` with no loop
around it, and from nothing else.
-/

namespace JsonTemplate

/-- Every value and all JSON are something. -/
theorem stable_true : Stable (fun _ => True) (fun _ => True) where
  integer _ := trivial
  text _ := trivial
  boolean _ := trivial
  null := trivial
  ofJson _ _ := trivial
  toJson value _ := ifOk_true value.toJson
  apply _ _ _ _ _ := ifOk_true _
  neg operand _ := ifOk_true operand.neg
  array _ _ := trivial
  object_nil := trivial
  insertMember _ _ _ _ _ := trivial
  walk? _ _ _ _ _ := trivial

/-- Every task is something. -/
theorem Task.all_true (task : Task) : task.All (fun _ => True) (fun _ => True) := by
  obtain ⟨mode, state⟩ := task
  refine ⟨fun _ _ => trivial, ?_⟩
  cases mode with
  | evaluate this | execute this => exact ⟨fun _ _ => trivial, fun _ _ => trivial⟩
  | build scope this => exact fun _ _ => trivial

namespace Node

/-- A node that goes round. -/
def IsLoop : Node → Prop
  | while_ _ _ | for_ _ _ _ _ _ => True
  | _ => False

/-- None of the nodes above a place in a tree is a loop. -/
def NoLoopAbove : Node → List Nat → Prop
  | _, [] => True
  | node, i :: below => ¬node.IsLoop ∧ ∀ part ∈ node.parts[i]?, part.NoLoopAbove below

variable {rounds : Nat} {node tree : Node} {task called start : Task} {error : EvalError}

/-- A part is read at the depth of loops within its node. -/
theorem Calls.loopDepth {i : Nat} (h : node.Calls rounds task i called) :
    called.frame.loopDepth = node.depthWithin task :=
  (h.within stable_true (fun _ _ => trivial) task.all_true).loopDepth

/-- Outside of loops the parts of what is no loop are outside as well. -/
theorem depthWithin_eq_zero (hnode : ¬node.IsLoop) (htask : task.frame.loopDepth = 0) :
    node.depthWithin task = 0 := by
  obtain ⟨mode, state⟩ := task
  cases node with
  | while_ | for_ => exact absurd trivial hnode
  | block => cases mode <;> first | exact htask | rfl
  | object => rfl
  | _ => exact htask

/-- A block that is called is outside of all loops. -/
theorem depthWithin_callable (statements : List Node) (h : ∀ this, task.mode ≠ .execute this) :
    (block statements).depthWithin task = 0 := by
  obtain ⟨mode, state⟩ := task
  cases mode with
  | execute this => exact absurd rfl (h this)
  | evaluate this | build scope this => rfl

/-- Where there is no loop at the start and none on the way, there is none. -/
theorem Reached.loopDepth_eq_zero {place : List Nat}
    (h : node.Reached rounds task tree start place) (hstart : start.frame.loopDepth = 0)
    (hway : tree.NoLoopAbove place) : task.frame.loopDepth = 0 := by
  induction h with
  | here => exact hstart
  | inside hpart hcalls _ ih =>
    refine ih ?_ (hway.2 _ hpart)
    rw [hcalls.loopDepth, depthWithin_eq_zero hway.1 hstart]

/-- In a callable block there is no loop but those of the block. -/
theorem Reached.loopDepth_eq_zero_of_callable {statements : List Node} {place : List Nat}
    (h : node.Reached rounds task (block statements) start place) (hne : node ≠ block statements)
    (hcallable : ∀ this, start.mode ≠ .execute this)
    (hway : (block statements).NoLoopAbove place) : task.frame.loopDepth = 0 := by
  cases h with
  | here => exact absurd rfl hne
  | inside hpart hcalls hbelow =>
    refine hbelow.loopDepth_eq_zero ?_ (hway.2 _ hpart)
    rw [hcalls.loopDepth, depthWithin_callable statements hcallable]

/-- Whatever its parts do, a loop ends normally or by returning. -/
theorem execute_loop_alike (h : node.IsLoop) (this : This) :
    ((node.meaning rounds).execute this).Alike Eq (fun _ => False) (fun _ => True)
      (Flow.PossibleAt 0) ((node.meaning rounds).execute this) := by
  have hinLoop {eval : Eval Flow}
      (h : eval.Alike Eq (fun _ => False) (fun _ => True) (Flow.PossibleAt 0) eval) :
      (Eval.inLoop eval).Alike Eq (fun _ => False) (fun _ => True) (Flow.PossibleAt 0)
        (Eval.inLoop eval) := by
    refine .focus (fun _ _ h => by rw [h]) ?_ h
    rintro _ _ _ _ rfl rfl
    rfl
  cases node with
  | while_ condition body =>
    exact hinLoop <|
      Meaning.alike_whileLoop trivial (fun _ _ => trivial) (.refl _) (.refl _) rounds
  | for_ name start stop step body =>
    refine hinLoop (.bind (.refl _) fun _ _ => .bind (.refl _) fun first _ => ?_)
    refine .bind (.refl _) fun _ _ => .bind (.refl _) fun last _ => .bind (.refl _) fun step _ => ?_
    split
    · exact .throw trivial
    · exact Meaning.alike_countLoop trivial (fun _ _ => trivial) name (fun _ => .refl _) last step
        first
  | _ => exact h.elim

/-- No block leaves a loop itself. -/
theorem LeavesWith.ne_block (h : node.LeavesWith error) (statements : List Node) :
    node ≠ block statements := by
  rintro rfl
  exact h

/-- A `break` or a `continue` with no loop around it fails in each of its readings. -/
theorem LeavesWith.failsWith (h : node.LeavesWith error) (htask : task.frame.loopDepth = 0) :
    (node.meaning rounds).FailsWith task error := by
  have hleave (flow : Flow) (outside : EvalError) :
      (Meaning.leave flow outside).FailsWith task outside := by
    refine Meaning.failsWith_ofStatement ⟨task.frame, ?_⟩
    refine (Run.bind_of_ok rfl).trans ?_
    rw [htask]
    rfl
  cases node with
  | break_ =>
    obtain rfl := h
    exact hleave .break_ _
  | continue_ =>
    obtain rfl := h
    exact hleave .continue_ _
  | _ => exact h.elim

end Node

/-- No error of an operation is one of leaving. -/
theorem EvalError.IsOperation.not_isOfLeaving {error : EvalError} (h : error.IsOperation) :
    ¬error.IsOfLeaving := by
  cases error with
  | breakOutsideLoop | continueOutsideLoop => exact h.elim
  | _ => exact id

namespace Node

variable {rounds : Nat} {tree : Node} {start : Task} {error : EvalError}

/-- No construct but a `break` or a `continue` with no loop around it raises the errors of
leaving a loop. -/
theorem leaves_or_passesOn (h : error.IsOfLeaving)
    (hfails : (tree.meaning rounds).FailsWith start error) :
    (tree.LeavesWith error ∧ start.frame.loopDepth = 0) ∨ tree.PassesOn rounds start error := by
  have hoperates {result : Except EvalError Value} (hoperates : Value.Operates result) :
      Admits (fun error => error.IsOfLeaving → tree.LeavesWith error ∧ start.frame.loopDepth = 0)
        (fun _ => True) result :=
    hoperates.mono (fun _ hoperation hleaving => absurd hleaving hoperation.not_isOfLeaving)
      fun _ _ => trivial
  have own : RaisesOwn (fun _ => True)
      fun error => error.IsOfLeaving → tree.LeavesWith error ∧ start.frame.loopDepth = 0 := by
    refine ⟨fun error _ hnot hleaving => absurd hleaving hnot, fun value _ => ?_,
      fun operand _ => hoperates operand.operates_neg⟩
    exact value.operates_toJson.mono
      (fun _ hoperation hleaving => absurd hleaving hoperation.not_isOfLeaving) fun _ h => h
  refine (raises_or_passesOn stable_true own (fun _ _ => trivial) start.all_true
    (fun operator l r _ => hoperates (Value.operates_apply operator l r))
    (fun error hleaves hdepth _ => ⟨hleaves, hdepth⟩) hfails).imp_left fun hown => hown h

/-- The errors of leaving a loop are those of a `break` or a `continue` that is reached with no loop
around it. -/
theorem failsWith_leaving_iff (h : error.IsOfLeaving) :
    (tree.meaning rounds).FailsWith start error ↔
      ∃ node task place, Reached rounds node task tree start place ∧
        node.LeavesWith error ∧ task.frame.loopDepth = 0 := by
  constructor
  · exact exists_reached_of_failsWith (C := fun _ _ => True) (fun _ _ _ _ _ _ _ _ => trivial)
      (fun _ _ _ => leaves_or_passesOn h) trivial
  · rintro ⟨node, task, place, hreached, hleaves, hdepth⟩
    exact hreached.failsWith (hleaves.failsWith hdepth)

end Node

/-- How statements keep to the loops of their own block, for all trees and states. -/
structure KeepsToOwnLoops (rounds : Nat) : Prop where
  /-- As many loops are around after an evaluation as before, also after an error. -/
  evaluate : ∀ (node : Node) this frame result after,
    (node.meaning rounds).evaluate this frame = some (result, after) →
      after.loopDepth = frame.loopDepth
  execute : ∀ (node : Node) this frame result after,
    (node.meaning rounds).execute this frame = some (result, after) →
      after.loopDepth = frame.loopDepth
  /-- A statement ends by leaving a loop only where there is one. -/
  leaves : ∀ (node : Node) this frame flow after,
    (node.meaning rounds).execute this frame = some (.ok flow, after) →
      flow = .break_ ∨ flow = .continue_ → 0 < frame.loopDepth
  /-- A loop ends normally or by returning. -/
  loop : ∀ node : Node, node.IsLoop → ∀ this frame flow after,
    (node.meaning rounds).execute this frame = some (.ok flow, after) →
      flow = .proceed ∨ ∃ value, flow = .return_ value
  /-- So do the statements of a callable block. -/
  callable : ∀ statements this environment flow after,
    Meaning.sequence this (Node.meanings rounds statements) ⟨environment, #[], 0⟩ =
      some (.ok flow, after) → flow = .proceed ∨ ∃ value, flow = .return_ value
  /-- A `break` or a `continue` that a callable block reaches outside of its own loops is the error
  of the block, and of every tree that reaches the block, in whatever loops. -/
  outside : ∀ (node : Node) error statements task called place, node.LeavesWith error →
    node.Reached rounds task (.block statements) called place →
    (Node.block statements).NoLoopAbove place → (∀ this, called.mode ≠ .execute this) →
    ∀ tree start above, (Node.block statements).Reached rounds called tree start above →
      (tree.meaning rounds).FailsWith start error
  /-- These errors have no other source than a `break` or a `continue` with no loop around it. -/
  error : ∀ error : EvalError, error.IsOfLeaving → ∀ (tree : Node) start,
    (tree.meaning rounds).FailsWith start error ↔
      ∃ node task place, Node.Reached rounds node task tree start place ∧
        node.LeavesWith error ∧ task.frame.loopDepth = 0

/-- Statements keep to the loops of their own block. -/
theorem keepsToOwnLoops (rounds : Nat) : KeepsToOwnLoops rounds where
  evaluate node this frame result after h :=
    (((node.runsBehind rounds).evaluate this #[] frame.loopDepth).keeps frame rfl result after h).1
  execute node this frame result after h :=
    (((node.runsBehind rounds).execute this #[] frame.loopDepth).keeps frame rfl result after h).1
  leaves node this frame flow after h hleaves := by
    have hexecute := (node.runsBehind rounds).execute this #[] frame.loopDepth
    have hpossible := (hexecute.keeps frame rfl _ after h).2
    rcases hleaves with rfl | rfl <;> exact hpossible
  loop node hloop this frame flow after h :=
    Flow.possibleAt_zero_iff.mp ((Node.execute_loop_alike hloop this).admits h)
  callable statements this environment flow after h := by
    have hexecute := ((Node.block statements).runsBehind rounds).execute this #[] 0
    exact Flow.possibleAt_zero_iff.mp (hexecute.keeps ⟨environment, #[], 0⟩ rfl _ after h).2
  outside node error statements task called place hleaves hreached hway hcallable tree start above
      habove := by
    have hdepth := hreached.loopDepth_eq_zero_of_callable (hleaves.ne_block _) hcallable hway
    exact habove.failsWith (hreached.failsWith (hleaves.failsWith hdepth))
  error error h tree start := Node.failsWith_leaving_iff h

/-- The `break` of a callable block does not leave the loop around the block. -/
example : ((Node.while_ (.boolean true) (.assign "x" (.block [.break_]))).meaning 1).execute none
    ⟨.empty, #[], 0⟩ = some (.error .breakOutsideLoop, ⟨.empty, #[], 0⟩) := rfl

end JsonTemplate
