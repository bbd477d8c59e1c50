import JsonTemplate.Proofs.Evaluation.Results
import JsonTemplate.Proofs.Evaluation.Visits
import JsonTemplate.Proofs.Parser.Roles

/-!
# What parsed documents cannot do

The tree of a parsed document has no branches and no loops. Blocks stand only where a value of a
member or an element stands, bindings and returns only in blocks, and no integer is negative but
the least. So parsed documents come to an end without a limit on the rounds of loops, none of the
errors of loops is theirs, and their returns are only ever executed as statements.
-/

namespace JsonTemplate

namespace Node

/-- A branch, a loop, or a way to leave a loop or a round of it. -/
def IsControl : Node → Prop
  | cond _ _ | while_ _ _ | for_ _ _ _ _ _ | break_ | continue_ => True
  | _ => False

/-- A node that is a block. -/
def IsBlock : Node → Prop
  | block _ => True
  | _ => False

/-- A binding or a return. -/
def IsBlockStatement : Node → Prop
  | assign _ _ | return_ _ => True
  | _ => False

/-- A tree of the restricted shape that documents are parsed to. -/
structure Restricted (tree : Node) : Prop where
  root : tree.IsContainer
  noControl : ∀ node : Node, node.Occurs tree → ¬ node.IsControl
  blocks : ∀ node part : Node, node.Occurs tree → part ∈ node.parts → part.IsBlock →
    node.IsContainer
  statements : ∀ node part : Node, node.Occurs tree → part ∈ node.parts → part.IsBlockStatement →
    node.IsBlock
  integers : ∀ value, (integer value).Occurs tree →
    0 ≤ value.toInt ∧ value.toInt ≤ 2 ^ 63 - 1 ∨ value.toInt = -2 ^ 63

/-- No node in a role of a parsed tree is one of control. -/
theorem InRole.not_isControl {role : Role} {node : Node} (h : InRole role node) :
    ¬ node.IsControl := by
  induction h with
  | expressionValue _ ih | expressionStatement _ ih => exact ih
  | _ => exact id

/-- A block in a role is a value, and its place is in an object or an array. -/
theorem InRole.isContainer_of_block {node part : Node} (h : InRole node.partRole part)
    (hpart : part.IsBlock) : node.IsContainer := by
  cases part with
  | block statements =>
    cases node with
    | object | array => trivial
    | block => cases h with | expressionStatement h => cases h
    | _ => cases h
  | _ => exact hpart.elim

/-- A binding or a return in a role is a statement, and its place is in a block. -/
theorem InRole.isBlock_of_statement {node part : Node} (h : InRole node.partRole part)
    (hpart : part.IsBlockStatement) : node.IsBlock := by
  cases part with
  | assign | return_ =>
    cases node with
    | block => trivial
    | object | array => cases h with | expressionValue h => cases h
    | _ => cases h
  | _ => exact hpart.elim

/-- An integer in a parsed tree is a literal, or the least one. -/
theorem InRole.integer_bounds {role : Role} {value : Int64} (h : InRole role (Node.integer value)) :
    0 ≤ value.toInt ∧ value.toInt ≤ 2 ^ 63 - 1 ∨ value.toInt = -2 ^ 63 := by
  have hbounds : InRole .expression (Node.integer value) := by
    cases h with
    | integer h => exact .integer h
    | expressionValue h | expressionStatement h => exact h
  cases hbounds with
  | integer h =>
    have hlt := value.toInt_lt
    rcases h with h | rfl
    · exact Or.inl ⟨h, by omega⟩
    · exact Or.inr rfl

/-- A parsed tree keeps to the restricted language. -/
theorem restricted_of_inRole {tree : Node} {role : Role} (h : InRole role tree)
    (hroot : tree.IsContainer) : tree.Restricted where
  root := hroot
  noControl node hoccurs := by
    obtain ⟨_, hnode⟩ := hoccurs.inRole h
    exact hnode.not_isControl
  blocks node part hoccurs hpart hblock := by
    obtain ⟨_, hnode⟩ := hoccurs.inRole h
    exact (hnode.part hpart).isContainer_of_block hblock
  statements node part hoccurs hpart hstatement := by
    obtain ⟨_, hnode⟩ := hoccurs.inRole h
    exact (hnode.part hpart).isBlock_of_statement hstatement
  integers value hoccurs := by
    obtain ⟨_, hnode⟩ := hoccurs.inRole h
    exact hnode.integer_bounds

/-- A node in a role means the same whatever the limit on the rounds of loops is. -/
theorem InRole.meaning_eq {role : Role} {node : Node} (h : InRole role node) (rounds other : Nat) :
    node.meaning rounds = node.meaning other := by
  induction node using induction_parts generalizing role with
  | step node ih =>
    have hparts : meaningAt rounds node.parts = meaningAt other node.parts := by
      funext i
      cases hpart : node.parts[i]? with
      | none => rw [meaningAt, meaningAt, hpart, Option.getD_none, meaning, meaning]
      | some part =>
        have hmem := List.mem_of_getElem? hpart
        rw [meaningAt_of_getElem? hpart, meaningAt_of_getElem? hpart, ih part hmem (h.part hmem)]
    rw [meaning_eq_assemble, meaning_eq_assemble other, hparts]
    have hcontrol := h.not_isControl
    cases node with
    | while_ => exact absurd trivial hcontrol
    | for_ => exact absurd trivial hcontrol
    | _ => rfl

end Node

/-- The errors of loops: leaving one outside of all, and a bad bound or step. -/
def EvalError.IsOfLoops : EvalError → Prop
  | breakOutsideLoop | continueOutsideLoop | zeroStep | operandType .loopBound _
  | operandType .loopStep _ => True
  | _ => False

/-- The ways in which statements end where there are no loops to leave. -/
def Flow.StaysInLoop : Flow → Prop
  | proceed | return_ _ => True
  | break_ | continue_ => False

namespace Node

/-- A node of a parsed tree leaves no loop from outside of it. -/
theorem InRole.permits {role : Role} {node : Node} (h : InRole role node) (mode : Mode) :
    node.Permits (fun error => ¬ error.IsOfLoops) Flow.StaysInLoop mode := by
  have hcontrol := h.not_isControl
  cases node with
  | lookup name => exact id
  | this path => exact ⟨fun _ => id, fun _ => id⟩
  | block statements => exact ⟨False.elim, False.elim⟩
  | for_ | break_ | continue_ => exact absurd trivial hcontrol
  | _ => trivial

/-- The errors of loops are none of a node in a role. -/
theorem InRole.not_failsWith {role : Role} {node : Node} (h : InRole role node) {rounds : Nat}
    {task : Task} {error : EvalError} (hfails : (node.meaning rounds).FailsWith task error) :
    ¬ error.IsOfLoops := by
  refine error_of_failsWith (E := fun error => ¬ error.IsOfLoops) (F := Flow.StaysInLoop)
    (C := fun node _ => ∃ role, InRole role node) ?_ trivial (fun _ => trivial) ?_ ?_ ⟨role, h⟩
    hfails
  · intro error hoperation hloops
    cases error with
    | operandType use => cases use <;> first | exact hoperation | exact hloops
    | _ => first | exact hoperation | exact hloops
  · rintro node mode ⟨_, hnode⟩
    exact hnode.permits mode
  · rintro node mode ⟨_, hnode⟩ part hpart used -
    exact ⟨_, hnode.part hpart⟩

/-- Below a tree that is executed if it is a return, a return is only reached as a statement. -/
theorem Reached.execute_of_return {rounds : Nat} {value tree : Node} {task start : Task}
    {place : List Nat} (h : (return_ value).Reached rounds task tree start place) {role : Role}
    (htree : InRole role tree)
    (hstart : ∀ value, tree = return_ value → ∃ this, start.mode = .execute this) :
    ∃ this, task.mode = .execute this := by
  induction h generalizing role with
  | here => exact hstart value rfl
  | @inside tree part start called i below hpart hcalls _ ih =>
    have hrole := htree.part (List.mem_of_getElem? hpart)
    refine ih hrole fun value hreturn => ?_
    have hblock := hrole.isBlock_of_statement (by rw [hreturn]; trivial)
    have huses := hcalls.uses
    cases tree with
    | block statements => exact ⟨_, huses⟩
    | _ => exact hblock.elim

end Node

/-- A parsed document has a tree of the restricted shape. It is built with one and the same result,
whatever the limit on the rounds of loops is; the result is none of the errors of loops; and no
return is ever read but as a statement of a block. -/
theorem safe_of_parse {tokens : List Token} {tree : Node} (h : parse tokens = .ok tree) :
    tree.Restricted ∧
      (∀ interpreter : Interpreter, ∃ result,
        (∀ rounds, interpreter.build rounds tree = some (result, .new)) ∧
          Admits (fun error => ¬ error.IsOfLoops) (fun _ => True) result) ∧
      ∀ rounds (interpreter : Interpreter) value task place,
        (Node.return_ value).Reached rounds task tree interpreter.task place →
          ∃ this, task.mode = .execute this := by
  have hrole := inRole_of_parse h
  have hroot := isContainer_of_parse h
  refine ⟨Node.restricted_of_inRole hrole hroot, fun interpreter => ?_,
    fun rounds interpreter value task place hreached => ?_⟩
  · obtain ⟨⟨result, after⟩, hresult⟩ := Option.isSome_iff_exists.mp
      ((tree.ends_meaning 0 hrole.whileFree).build .root none interpreter.environment)
    refine ⟨result, fun rounds => ?_, ?_⟩
    · rw [Interpreter.build, hrole.meaning_eq rounds 0, hresult]
      rfl
    · cases result with
      | ok json => trivial
      | error error =>
        have hfails : (tree.meaning 0).FailsWith interpreter.task error := ⟨after, hresult⟩
        exact hrole.not_failsWith hfails
  · refine hreached.execute_of_return hrole fun other hreturn => ?_
    rw [hreturn] at hroot
    exact hroot.elim

/-- The tree of `[-> { return -9223372036854775808; }]`. -/
def leastNode : Node := .array [.block [.return_ (.integer .minValue)]]

/-- The tokens of a document with the least integer. -/
def leastTokens : List Token :=
  [.symbol .leftBracket, .symbol .arrow, .symbol .leftBrace, .keyword .return_, .symbol .minus,
    .integer (2 ^ 63), .symbol .semicolon, .symbol .rightBrace, .symbol .rightBracket].map
      (⟨·, ⟨0, 0⟩⟩)

/-- The least integer is returned by a statement that is reached as one. -/
theorem safe_leastNode :
    parse leastTokens = .ok leastNode ∧ leastNode.Restricted ∧
      (∃ result, (∀ rounds, Interpreter.new.build rounds leastNode = some (result, .new)) ∧
        Admits (fun error => ¬ error.IsOfLoops) (fun _ => True) result) ∧
      ∃ task : Task, (Node.return_ (.integer .minValue)).Reached 0 task leastNode
        Interpreter.new.task [0, 0] ∧ ∃ this, task.mode = .execute this := by
  have hparse : parse leastTokens = .ok leastNode := by with_unfolding_all rfl
  have hreached : (Node.return_ (.integer .minValue)).Reached 0
      ⟨.execute none, ⟨.empty, #[], 0⟩⟩ leastNode Interpreter.new.task [0, 0] :=
    .inside rfl (Node.calls_element rfl rfl)
      (.inside rfl (Node.calls_statement rfl rfl rfl) .here)
  obtain ⟨hrestricted, hresult, hreturn⟩ := safe_of_parse hparse
  exact ⟨hparse, hrestricted, hresult .new, _, hreached, hreturn 0 .new _ _ _ hreached⟩

end JsonTemplate
