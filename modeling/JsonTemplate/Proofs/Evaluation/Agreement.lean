import JsonTemplate.Evaluation.Ending
import JsonTemplate.Proofs.Evaluation.Readings
import JsonTemplate.Proofs.Parser.Roles

/-!
# Building and evaluating values

A value is built where it is a part of the document, and evaluated where it stands inside a
running block. The two readings are defined apart for each kind of node, and they agree for the
values that a template spells: both run one computation on the bindings, building gives its
result as JSON, and evaluating touches neither the output nor the loops of the block around it.

The one difference is the object being built. An array that is built passes none on to its
elements and one that is evaluated passes on that of its block, so a `this` with no object literal
of the value around it can give different results, and is excluded here. An object literal makes
an object of its own in both readings, so a `this` inside of it is no exception.
-/

namespace JsonTemplate

variable {α β : Type}

namespace Eval

/-- Building one thing after another in a frame is doing so on its bindings. -/
theorem onEnvironment_bind (first : Build α) (next : α → Build β) :
    onEnvironment (first >>= next) =
      onEnvironment first >>= fun result => onEnvironment (next result) := by
  funext frame
  rw [Run.bind_apply]
  simp only [onEnvironment, Run.focus, Run.bind_apply]
  cases first frame.environment with
  | none => rfl
  | some outcome =>
    obtain ⟨result, after⟩ := outcome
    cases result <;> rfl

/-- A result is given in a frame as on its bindings. -/
theorem onEnvironment_pure (result : α) :
    onEnvironment (pure result) = (pure result : Eval α) := rfl

/-- A pure step is taken in a frame as on its bindings. -/
theorem onEnvironment_lift (result : Except EvalError α) :
    onEnvironment (Run.lift result) = (Run.lift result : Eval α) := by
  cases result <;> rfl

end Eval

/-- A new block in which only the bindings are used is as good as none. -/
theorem Build.inFrame_onEnvironment (build : Build α) :
    inFrame (Eval.onEnvironment build) = build := by
  funext environment
  simp only [inFrame, Eval.onEnvironment, Run.focus]
  cases build environment <;> rfl

/-- The value of a name, without a block. -/
def Build.lookup (name : String) : Build Value := do
  match (← get).lookup? name with
  | some value => return value
  | none => throw (.unboundVariable name)

/-- Looking up a name in a frame is looking it up in its bindings. -/
theorem Eval.lookup_eq_onEnvironment (name : String) :
    Eval.lookup name = Eval.onEnvironment (Build.lookup name) := by
  funext frame
  simp only [Eval.lookup, Build.lookup, Eval.onEnvironment, Run.focus, Run.bind_apply,
    Run.get_apply, Option.bind_some]
  cases frame.environment.lookup? name <;> rfl

namespace Meaning

/-- A fragment is converted to the JSON that it holds. -/
theorem jsonOf_fragment {σ : Type} (json : Json) :
    jsonOf (.fragment json) = (pure json : Run σ Json) := rfl

/-- A meaning whose readings as a value are one computation on the bindings, whatever object is
being built. -/
structure ReadsAs (meaning : Meaning) (value : Build Value) : Prop where
  evaluate : ∀ this, meaning.evaluate this = Eval.onEnvironment value
  build : ∀ this, meaning.build .nested this = value >>= jsonOf

/-- What evaluating gives as JSON is what building gives. -/
theorem ReadsAs.evaluate_jsonOf {meaning : Meaning} {value : Build Value}
    (h : meaning.ReadsAs value) (this other : This) :
    meaning.evaluate this >>= jsonOf = Eval.onEnvironment (meaning.build .nested other) := by
  have hjson (value : Value) : Eval.onEnvironment (jsonOf value) = jsonOf value :=
    Eval.onEnvironment_lift _
  rw [h.evaluate, h.build, Eval.onEnvironment_bind]
  simp only [hjson]

/-- An expression on the bindings reads as what it computes there. -/
theorem readsAs_ofExpression {evaluate : This → Eval Value} {value : Build Value}
    (h : ∀ this, evaluate this = Eval.onEnvironment value) :
    (ofExpression evaluate).ReadsAs value where
  evaluate := h
  build this := by
    simp only [ofExpression, building, start, pure_bind]
    rw [h, Build.inFrame_onEnvironment]

/-- A literal reads as its value. -/
theorem readsAs_literal {value : Value} {json : Json} (h : value.toJson = .ok json) :
    (literal value json).ReadsAs (pure value) where
  evaluate _ := rfl
  build this := by
    rw [pure_bind, jsonOf, h]
    rfl

/-- An operation reads as the operation on what its operands read as. -/
theorem readsAs_binary {operator : Operator} {left right : Meaning} {l r : Build Value}
    (hleft : left.ReadsAs l) (hright : right.ReadsAs r) :
    (binary operator left right).ReadsAs (do Run.lift (Value.apply operator (← l) (← r))) :=
  readsAs_ofExpression fun this => by
    simp only [hleft.evaluate, hright.evaluate, Eval.onEnvironment_bind, Eval.onEnvironment_lift]

/-- A change of sign reads as one of what its operand reads as. -/
theorem readsAs_negate {operand : Meaning} {value : Build Value} (h : operand.ReadsAs value) :
    (negate operand).ReadsAs (do Run.lift (← value).neg) :=
  readsAs_ofExpression fun this => by
    simp only [h.evaluate, Eval.onEnvironment_bind, Eval.onEnvironment_lift]

/-- What members are built as is an object, and survives being a value in between. -/
theorem buildMembers_jsonOf (scope : Scope) (sofar : List (String × Json))
    (members : List (String × Meaning)) :
    (do jsonOf (.ofJson (← buildMembers scope sofar members))) =
      buildMembers scope sofar members := by
  induction members generalizing sofar with
  | nil => rfl
  | cons member rest ih =>
    simp only [buildMembers, bind_assoc]
    congr 1
    funext value
    exact ih _

/-- An object reads as the value of what its members build. -/
theorem readsAs_object (members : List (String × Meaning)) :
    (object members).ReadsAs (do return .ofJson (← buildMembers .nested [] members)) where
  evaluate _ := by
    simp only [object, objectValue, Eval.onEnvironment_bind, Eval.onEnvironment_pure]
  build _ := by
    simp only [object, bind_assoc, pure_bind]
    exact (buildMembers_jsonOf _ _ _).symm

/-- Elements that read as values are collected alike as values and as JSON. -/
theorem collect_evaluate {elements : List Meaning}
    (h : ∀ element ∈ elements, ∃ value, element.ReadsAs value) (this : This) :
    collect (fun element => do jsonOf (← element.evaluate this)) elements =
      Eval.onEnvironment (collect (·.build .nested none) elements) := by
  induction elements with
  | nil => rfl
  | cons element rest ih =>
    obtain ⟨⟨value, hvalue⟩, hrest⟩ := List.forall_mem_cons.mp h
    simp only [collect, Eval.onEnvironment_bind, Eval.onEnvironment_pure,
      hvalue.evaluate_jsonOf this none, ih hrest]

/-- An array reads as the fragment of what its elements build. -/
theorem readsAs_array {elements : List Meaning}
    (h : ∀ element ∈ elements, ∃ value, element.ReadsAs value) :
    (array elements).ReadsAs
      (do return .fragment (.array (← collect (·.build .nested none) elements))) where
  evaluate this := by
    simp only [array, arrayValue, collect_evaluate h, Eval.onEnvironment_bind,
      Eval.onEnvironment_pure]
  build _ := by simp only [array, bind_assoc, pure_bind, jsonOf_fragment]

/-- A meaning that is executed in the same way whatever object is being built. -/
def IsBlind (meaning : Meaning) : Prop := ∀ this, meaning.execute this = meaning.execute none

/-- Statements that are blind to the object run in the same way with any. -/
theorem sequence_of_isBlind {statements : List Meaning}
    (h : ∀ statement ∈ statements, statement.IsBlind) (this : This) :
    sequence this statements = sequence none statements := by
  induction statements with
  | nil => rfl
  | cons statement rest ih =>
    obtain ⟨hstatement, hrest⟩ := List.forall_mem_cons.mp h
    simp only [sequence, hstatement this, ih hrest]

/-- A block of blind statements reads as a call without an object. -/
theorem readsAs_block {statements : List Meaning}
    (h : ∀ statement ∈ statements, statement.IsBlind) :
    (block statements).ReadsAs (callBlock statements none) where
  evaluate this := by simp only [block, callBlock, sequence_of_isBlind h this]
  build this := by simp only [block, callBlock, sequence_of_isBlind h this, start, pure_bind]

/-- An assignment is blind to the object if its value reads as a computation. -/
theorem isBlind_assign {name : String} {meaning : Meaning} {value : Build Value}
    (h : meaning.ReadsAs value) : (assign name meaning).IsBlind := fun this => by
  simp only [assign, ofStatement, h.evaluate]

/-- Returning is blind to the object if its value reads as a computation. -/
theorem isBlind_returning {meaning : Meaning} {value : Build Value} (h : meaning.ReadsAs value) :
    (returning meaning).IsBlind := fun this => by
  simp only [returning, ofStatement, h.evaluate]

/-- What a node in a role of a template means if no `this` is exposed in it. -/
def Agrees : Role → Meaning → Prop
  | .value, meaning => ∃ value, meaning.ReadsAs value
  | .statement, meaning => meaning.IsBlind
  | .expression, meaning =>
    (∃ value, meaning.ReadsAs value) ∧
      ∀ this, meaning.execute this = emitting (meaning.evaluate this)

/-- An expression that reads as a computation agrees in all its readings. -/
theorem Agrees.ofExpression {evaluate : This → Eval Value} {value : Build Value}
    (h : (Meaning.ofExpression evaluate).ReadsAs value) :
    Agrees .expression (Meaning.ofExpression evaluate) :=
  ⟨⟨value, h⟩, fun _ => rfl⟩

/-- What agrees as an expression is blind to the object. -/
theorem Agrees.isBlind {meaning : Meaning} (h : Agrees .expression meaning) :
    meaning.IsBlind := by
  obtain ⟨⟨value, hvalue⟩, hexecute⟩ := h
  intro this
  rw [hexecute, hexecute, hvalue.evaluate, hvalue.evaluate]

end Meaning

namespace Node

/-- Each `this` in a tree has an object literal of the tree around it. -/
def HidesThis (tree : Node) : Prop := ∀ path, ¬(this path).Exposed tree

/-- A node that hides `this` has parts that do, unless it is an object. -/
theorem HidesThis.part {node part : Node} (h : node.HidesThis)
    (hnode : ∀ members, node ≠ object members) (hpart : part ∈ node.parts) : part.HidesThis :=
  fun path hexposed => h path (.inside hnode hpart hexposed)

/-- The meaning of a node is the one that its role promises. -/
theorem InRole.agrees {role : Role} {node : Node} (h : node.InRole role) (hthis : node.HidesThis)
    (rounds : Nat) : Meaning.Agrees role (node.meaning rounds) := by
  induction h with
  | @block statements _ ih =>
    refine ⟨_, Meaning.readsAs_block ?_⟩
    rw [meanings_eq_map, List.forall_mem_map]
    exact fun statement hstatement => ih statement hstatement (hthis.part nofun hstatement)
  | expressionValue _ ih => exact (ih hthis).1
  | assign _ ih =>
    obtain ⟨⟨value, hvalue⟩, -⟩ := ih (hthis.part nofun List.mem_cons_self)
    exact Meaning.isBlind_assign hvalue
  | return_ _ ih =>
    obtain ⟨⟨value, hvalue⟩, -⟩ := ih (hthis.part nofun List.mem_cons_self)
    exact Meaning.isBlind_returning hvalue
  | expressionStatement _ ih => exact (ih hthis).isBlind
  | object => exact ⟨⟨_, Meaning.readsAs_object _⟩, fun _ => rfl⟩
  | @array elements _ ih =>
    refine ⟨⟨_, Meaning.readsAs_array ?_⟩, fun _ => rfl⟩
    rw [meanings_eq_map, List.forall_mem_map]
    exact fun element helement => ih element helement (hthis.part nofun helement)
  | string | integer | boolean | null =>
    exact ⟨⟨_, Meaning.readsAs_literal rfl⟩, fun _ => rfl⟩
  | float value =>
    exact .ofExpression (Meaning.readsAs_ofExpression fun _ => (Eval.onEnvironment_pure _).symm)
  | lookup name =>
    exact .ofExpression
      (Meaning.readsAs_ofExpression fun _ => Eval.lookup_eq_onEnvironment name)
  | binary _ _ ihLeft ihRight =>
    obtain ⟨⟨l, hleft⟩, -⟩ := ihLeft (hthis.part nofun List.mem_cons_self)
    obtain ⟨⟨r, hright⟩, -⟩ :=
      ihRight (hthis.part nofun (List.mem_cons_of_mem _ List.mem_cons_self))
    exact .ofExpression (Meaning.readsAs_binary hleft hright)
  | negate _ ih =>
    obtain ⟨⟨value, hvalue⟩, -⟩ := ih (hthis.part nofun List.mem_cons_self)
    exact .ofExpression (Meaning.readsAs_negate hvalue)
  | this path => exact absurd .here (hthis path)

end Node

/-- A member's value or an array's element is built and evaluated with the same result, a JSON
value or an error, and leaves the same bindings, unless a `this` in it has no object literal of it
around. Evaluation leaves the output and the loops of its block as they are. -/
theorem build_eq_evaluate {tokens : List Token} {root node : Node}
    (hparse : parse tokens = .ok root) (hvalue : node.IsValueIn root) (hthis : node.HidesThis)
    (rounds : Nat) (this other : This) (frame : Frame) :
    ∃ result environment,
      (node.meaning rounds).build .nested this frame.environment = some (result, environment) ∧
        ((node.meaning rounds).evaluate other >>= Meaning.jsonOf) frame =
          some (result, { frame with environment }) := by
  have hrole := hvalue.inRole (inRole_of_parse hparse)
  obtain ⟨value, hreads⟩ := hrole.agrees hthis rounds
  obtain ⟨⟨result, environment⟩, hbuild⟩ := Option.isSome_iff_exists.mp
    ((node.ends_meaning rounds hrole.whileFree).build .nested this frame.environment)
  refine ⟨result, environment, hbuild, ?_⟩
  rw [hreads.evaluate_jsonOf other this, Eval.onEnvironment, Run.focus, hbuild]
  rfl

/-- The array `[x {"a": 1 "b": -> { return this.a; }}]`. -/
def copyNode : Node :=
  .array [.lookup "x",
    .object [("a", .integer 1), ("b", .block [.return_ (.this [.field "a"])])]]

/-- The tokens of an array with this array as its element. -/
def copyTokens : List Token :=
  [.symbol .leftBracket, .symbol .leftBracket, .identifier "x", .symbol .leftBrace, .string "a",
    .symbol .colon, .integer 1, .string "b", .symbol .colon, .symbol .arrow, .symbol .leftBrace,
    .keyword .return_, .keyword .this, .symbol .dot, .identifier "a", .symbol .semicolon,
    .symbol .rightBrace, .symbol .rightBrace, .symbol .rightBracket,
    .symbol .rightBracket].map (⟨·, ⟨0, 0⟩⟩)

/-- The array is built and evaluated alike in a loop of a block that has put out a value and is
building an object of its own. -/
theorem build_copyNode :
    parse copyTokens = .ok (.array [copyNode]) ∧ copyNode.IsValueIn (.array [copyNode]) ∧
      copyNode.HidesThis ∧
      ∃ result environment,
        (copyNode.meaning 0).build .nested none ⟨[("x", .integer 7)]⟩ =
            some (result, environment) ∧
          ((copyNode.meaning 0).evaluate (some [("a", .null)]) >>= Meaning.jsonOf)
              ⟨⟨[("x", .integer 7)]⟩, #[.null], 1⟩ =
            some (result, ⟨environment, #[.null], 1⟩) := by
  have hparse : parse copyTokens = .ok (.array [copyNode]) := by with_unfolding_all rfl
  have hvalue : copyNode.IsValueIn (.array [copyNode]) := .element List.mem_cons_self .here
  have hthis : copyNode.HidesThis := by
    intro path hexposed
    cases hexposed with
    | inside _ hpart hinner =>
      rcases List.mem_cons.mp hpart with rfl | hpart
      · cases hinner with
        | inside _ hpart _ => exact List.not_mem_nil hpart
      · obtain rfl := List.mem_singleton.mp hpart
        cases hinner with
        | inside hnode _ _ => exact hnode _ rfl
  exact ⟨hparse, hvalue, hthis, build_eq_evaluate hparse hvalue hthis 0 none (some [("a", .null)])
    ⟨⟨[("x", .integer 7)]⟩, #[.null], 1⟩⟩

end JsonTemplate
