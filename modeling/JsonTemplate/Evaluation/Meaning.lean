import JsonTemplate.Evaluation.Run

/-!
# The meanings of nodes

A node has three readings. Evaluated, it gives a value; executed, it is a statement of a
block; built, it gives JSON as a part of the document. Each kind of node combines the readings
of its parts, and the combinations are given here.

`this` is the object being built, as far as its members are already there. It reaches the
callable block that is the value of a member. A built array or expression sees no object, an
evaluated array passes on the one of its block, and an object literal is an object of its own.
-/

namespace JsonTemplate

/-- The members of the object being built, if there is one. -/
abbrev This := Option (List (String × Json))

/-- Where the building of a part began: at the root of the document, where each block and
each expression starts without bindings, or inside a running block, whose bindings it keeps. -/
inductive Scope where
  | root
  | nested
deriving DecidableEq, Repr

/-- The three readings of a node. -/
structure Meaning where
  evaluate : This → Eval Value
  execute : This → Eval Flow
  build : Scope → This → Build Json

namespace Meaning

/-- Forgets all bindings at the root of the document. -/
def start : Scope → Build Unit
  | .root => set Environment.empty
  | .nested => pure ()

/-- A value as JSON. -/
def jsonOf {σ : Type} (value : Value) : Run σ Json := Run.lift value.toJson

/-- The statement that adds a value to the output. -/
def emitting (value : Eval Value) : Eval Flow := do
  Eval.emit (← value)
  return .proceed

/-- The building of an expression, which sees no object. -/
def building (evaluate : This → Eval Value) (scope : Scope) (_ : This) : Build Json := do
  start scope
  jsonOf (← Build.inFrame (evaluate none))

/-- An expression. As a statement it adds its value to the output. -/
def ofExpression (evaluate : This → Eval Value) : Meaning where
  evaluate := evaluate
  execute this := emitting (evaluate this)
  build := building evaluate

/-- The value of a statement in value position: what it returns, and otherwise null. -/
def valueOf (statement : Eval Flow) : Eval Value := do
  match ← statement with
  | .return_ value => return value
  | _ => return .null

/-- A statement. -/
def ofStatement (execute : This → Eval Flow) : Meaning where
  evaluate this := valueOf (execute this)
  execute := execute
  build := building fun this => valueOf (execute this)

/-- A literal that is JSON already. -/
def literal (value : Value) (json : Json) : Meaning where
  evaluate _ := return value
  execute _ := emitting (return value)
  build _ _ := return json

/-- A name stands for what it is bound to. -/
def lookup (name : String) : Meaning := ofExpression fun _ => Eval.lookup name

/-- An operator applied to two operands, the left one evaluated first. -/
def binary (operator : Operator) (left right : Meaning) : Meaning :=
  ofExpression fun this => do
    let l ← left.evaluate this
    let r ← right.evaluate this
    Run.lift (Value.apply operator l r)

/-- An operand with its sign changed. -/
def negate (operand : Meaning) : Meaning :=
  ofExpression fun this => do Run.lift (← operand.evaluate this).neg

/-- What a path reaches in the object being built. -/
def resolve (path : List Accessor) : This → Eval Value
  | none => throw .thisOutsideObject
  | some members =>
    match Json.walk? path (.object members) with
    | some json => return .ofJson json
    | none => throw (.unresolvedPath path)

/-- A path into the object that is being built. -/
def this (path : List Accessor) : Meaning := ofExpression (resolve path)

/-- Builds members one after the other, each seeing those before it. -/
def buildMembers (scope : Scope) (sofar : List (String × Json)) :
    List (String × Meaning) → Build Json
  | [] => return .object sofar
  | (name, member) :: rest => do
    let value ← member.build scope (some sofar)
    buildMembers scope (Json.insertMember name value sofar) rest

/-- Collects the JSON of each element in order. -/
def collect {σ : Type} (step : Meaning → Run σ Json) : List Meaning → Run σ (List Json)
  | [] => return []
  | element :: rest => do
    let item ← step element
    return item :: (← collect step rest)

/-- The value of an object literal inside a block. -/
def objectValue (members : List (String × Meaning)) : Eval Value := do
  return .ofJson (← Eval.onEnvironment (buildMembers .nested [] members))

/-- An object is built member after member. -/
def object (members : List (String × Meaning)) : Meaning where
  evaluate _ := objectValue members
  execute _ := emitting (objectValue members)
  build scope _ := buildMembers scope [] members

/-- The value of an array literal inside a block: its elements see the block's object. -/
def arrayValue (elements : List Meaning) (this : This) : Eval Value := do
  return .fragment (.array (← collect (fun m => do jsonOf (← m.evaluate this)) elements))

/-- An array is built element after element. -/
def array (elements : List Meaning) : Meaning where
  evaluate := arrayValue elements
  execute this := emitting (arrayValue elements this)
  build scope _ := return .array (← collect (·.build scope none) elements)

/-- An assignment binds a name and puts nothing out. -/
def assign (name : String) (value : Meaning) : Meaning :=
  ofStatement fun this => do
    Eval.define name (← value.evaluate this)
    return .proceed

/-- A value that is returned ends the block. -/
def returning (value : Meaning) : Meaning :=
  ofStatement fun this => return .return_ (← value.evaluate this)

/-- Leaves the nearest loop of the block by the given flow, or fails outside of all loops. -/
def leave (flow : Flow) (outside : EvalError) : Meaning :=
  ofStatement fun _ => do
    if 0 < (← get).loopDepth then return flow else throw outside

/-- Executes statements in order until one does not end normally. -/
def sequence (this : This) : List Meaning → Eval Flow
  | [] => return .proceed
  | statement :: rest => do
    match ← statement.execute this with
    | .proceed => sequence this rest
    | flow => return flow

/-- The value of a block's output: null for none, a single value as it is, and otherwise the
joined texts of all. -/
def outputValue : List Value → Value
  | [] => .null
  | [value] => value
  | values => .text (values.foldl (· ++ ·.toText) "")

/-- The value of a callable block: what it returns, or else its output. -/
def callBlock (statements : List Meaning) (this : This) : Build Value :=
  Build.inFrame do
    match ← sequence this statements with
    | .return_ value => return value
    | .proceed => return outputValue (← get).output.toList
    | .break_ => throw .breakOutsideLoop
    | .continue_ => throw .continueOutsideLoop

/-- A block: as a statement its statements run in place, and as a value they are called. -/
def block (statements : List Meaning) : Meaning where
  evaluate this := Eval.onEnvironment (callBlock statements this)
  execute this := sequence this statements
  build scope this := do
    start scope
    jsonOf (← callBlock statements this)

/-- The body of the first case whose condition holds, or the alternative. -/
def choose (this : This) (otherwise : Option Meaning) : List (Meaning × Meaning) → Eval Flow
  | [] =>
    match otherwise with
    | some body => body.execute this
    | none => return .proceed
  | (condition, body) :: rest => do
    if (← condition.evaluate this).isTruthy then body.execute this
    else choose this otherwise rest

/-- The body of the first case whose condition is true, or else the one that is left. -/
def cond (cases : List (Meaning × Meaning)) (otherwise : Option Meaning) : Meaning :=
  ofStatement fun this => choose this otherwise cases

/-- Repeats a body while a condition holds, for at most the given number of rounds. -/
def whileLoop (condition : Eval Value) (body : Eval Flow) : Nat → Eval Flow
  | 0 => Run.unfinished
  | rounds + 1 => do
    if (← condition).isTruthy then
      match ← body with
      | .proceed | .continue_ => whileLoop condition body rounds
      | .break_ => return .proceed
      | .return_ value => return .return_ value
    else return .proceed

/-- A loop that goes on while its condition is true, for at most so many rounds. -/
def while_ (rounds : Nat) (condition body : Meaning) : Meaning :=
  ofStatement fun this =>
    Eval.inLoop (whileLoop (condition.evaluate this) (body.execute this) rounds)

/-- Whether a loop that counts towards `stop` by `step` has not passed it yet. -/
def inRange (current stop step : Int64) : Prop :=
  0 < step.toInt ∧ current.toInt ≤ stop.toInt ∨ step.toInt < 0 ∧ stop.toInt ≤ current.toInt

/-- Whether a loop is in its range is decided on the integers. -/
instance (current stop step : Int64) : Decidable (inRange current stop step) :=
  inferInstanceAs (Decidable (_ ∨ _))

/-- How far a loop is from its end. -/
def distance (current stop step : Int64) : Nat :=
  ((if 0 < step.toInt then stop.toInt - current.toInt else current.toInt - stop.toInt) + 1).toNat

/-- Each step brings a loop nearer to its end. -/
theorem distance_lt {current stop step next : Int64} (h : inRange current stop step)
    (hn : integer? (current.toInt + step.toInt) = some next) :
    distance next stop step < distance current stop step := by
  have hnext := toInt_of_integer? hn
  unfold inRange at h
  unfold distance
  split <;> omega

/-- Repeats a body with a name bound to `current`, `current + step` and so on, up to and
including `stop`, or to the last 64-bit integer before it. -/
def countLoop (name : String) (body : Eval Flow) (stop step current : Int64) : Eval Flow :=
  if h : inRange current stop step then do
    Eval.define name (.integer current)
    match ← body with
    | .proceed | .continue_ =>
      match hn : integer? (current.toInt + step.toInt) with
      | some next =>
        have := distance_lt h hn
        countLoop name body stop step next
      | none => return .proceed
    | .break_ => return .proceed
    | .return_ value => return .return_ value
  else return .proceed
termination_by distance current stop step

/-- The step of a loop, one if it is not given. -/
def stepOf (this : This) : Option Meaning → Eval Int64
  | none => return 1
  | some step => do Run.lift ((← step.evaluate this).asInteger .loopStep)

/-- A loop that counts from one integer to another. -/
def for_ (name : String) (start stop : Meaning) (step : Option Meaning) (body : Meaning) :
    Meaning :=
  ofStatement fun this => Eval.inLoop do
    let first ← Run.lift ((← start.evaluate this).asInteger .loopBound)
    let last ← Run.lift ((← stop.evaluate this).asInteger .loopBound)
    let step ← stepOf this step
    if step = 0 then throw .zeroStep
    else countLoop name (body.execute this) last step first

end Meaning

end JsonTemplate
