import JsonTemplate.Environment

/-!
# Computations

A computation works on a state and ends with a result or an error; the state it leaves behind
is kept in both cases. A loop goes round a limited number of times, and a computation whose
loop reaches the limit has not ended: it gives nothing at all, which is neither a result nor an
error.

`focus` runs a computation on another state that is made from the present one, and puts what
it leaves behind back, whether it ended with a result or an error.
-/

namespace JsonTemplate

/-- A computation on a state of type `σ`. -/
abbrev Run (σ α : Type) := ExceptT EvalError (StateT σ Option) α

namespace Run

variable {σ τ α β : Type}

/-- The computation that has not ended. -/
def unfinished : Run σ α := fun _ => none

/-- Runs a computation on a state made by `enter`, and takes the state it leaves behind back
by `leave`. -/
def focus (enter : σ → τ) (leave : τ → σ → σ) (run : Run τ α) : Run σ α := fun state =>
  (run (enter state)).map fun (result, inner) => (result, leave inner state)

/-- The result of a pure step that may fail. -/
def lift : Except EvalError α → Run σ α
  | .ok result => pure result
  | .error error => throw error

/-- Looking at the state gives it and leaves it. -/
theorem get_apply (state : σ) : (get : Run σ σ) state = some (.ok state, state) := rfl

/-- A pure step gives its result in the state that was there. -/
theorem lift_apply (result : Except EvalError α) (state : σ) :
    lift result state = some (result, state) := by
  cases result <;> rfl

/-- What follows a computation runs on its result and the state it leaves, and not at all
after an error. -/
theorem bind_apply (run : Run σ α) (next : α → Run σ β) (state : σ) :
    (run >>= next) state = (run state).bind fun
      | (.ok result, state) => next result state
      | (.error error, state) => some (.error error, state) := by
  change Option.bind (run state) _ = _
  congr 1
  funext ⟨result, state⟩
  cases result <;> rfl

/-- A computation that ends from every state, with a result or with an error. -/
def Ends (run : Run σ α) : Prop := ∀ state, (run state).isSome

namespace Ends

/-- Giving a result ends. -/
protected theorem pure (result : α) : (pure result : Run σ α).Ends := fun _ => rfl

/-- Failing ends. -/
protected theorem throw (error : EvalError) : (throw error : Run σ α).Ends := fun _ => rfl

/-- Looking at the state ends. -/
protected theorem get : (get : Run σ σ).Ends := fun _ => rfl

/-- Setting the state ends. -/
protected theorem set (state : σ) : (set state : Run σ PUnit).Ends := fun _ => rfl

/-- Changing the state ends. -/
protected theorem modify (f : σ → σ) : (modify f : Run σ PUnit).Ends := fun _ => rfl

/-- A pure step ends. -/
protected theorem lift (result : Except EvalError α) : (lift result : Run σ α).Ends :=
  fun state => by rw [lift_apply]; rfl

/-- A computation ends if its two parts do. -/
protected theorem bind {run : Run σ α} {next : α → Run σ β} (hrun : run.Ends)
    (hnext : ∀ result, (next result).Ends) : (run >>= next).Ends := by
  intro state
  rw [bind_apply]
  have hstate := hrun state
  cases h : run state with
  | none => simp [h] at hstate
  | some outcome =>
    obtain ⟨result, after⟩ := outcome
    cases result with
    | ok result => exact hnext result after
    | error error => rfl

/-- A computation on a part of the state ends if it does on that part. -/
protected theorem focus {enter : σ → τ} {leave : τ → σ → σ} {run : Run τ α}
    (hrun : run.Ends) : (focus enter leave run).Ends := fun state => by
  have := hrun (enter state)
  simpa [Run.focus] using this

end Ends

end Run

/-- The state of a running block: the bindings it shares with the blocks around it, its own
output, and the number of loops around the present statement within the block. -/
structure Frame where
  environment : Environment
  output : Array Value
  loopDepth : Nat

/-- A computation within a block. -/
abbrev Eval (α : Type) := Run Frame α

/-- A computation on the bindings alone. -/
abbrev Build (α : Type) := Run Environment α

/-- How a statement ends: normally, or by leaving the block or a loop. -/
inductive Flow where
  | proceed
  | return_ (value : Value)
  | break_
  | continue_

namespace Eval

/-- Runs a computation on the frame's bindings. -/
def onEnvironment {α : Type} (build : Build α) : Eval α :=
  Run.focus Frame.environment (fun environment frame => { frame with environment }) build

/-- Runs a computation with one more loop around it. -/
def inLoop {α : Type} (eval : Eval α) : Eval α :=
  Run.focus (fun frame => { frame with loopDepth := frame.loopDepth + 1 })
    (fun frame _ => { frame with loopDepth := frame.loopDepth - 1 }) eval

/-- Binds a name. -/
def define (name : String) (value : Value) : Eval Unit :=
  modify fun frame => { frame with environment := frame.environment.define name value }

/-- Adds a value to the block's output. -/
def emit (value : Value) : Eval Unit :=
  modify fun frame => { frame with output := frame.output.push value }

/-- The value of a name. -/
def lookup (name : String) : Eval Value := do
  match (← get).environment.lookup? name with
  | some value => return value
  | none => throw (.unboundVariable name)

end Eval

namespace Build

/-- Runs a computation within a new block that shares the bindings. -/
def inFrame {α : Type} (eval : Eval α) : Build α :=
  Run.focus (fun environment => ⟨environment, #[], 0⟩) (fun frame _ => frame.environment) eval

end Build

end JsonTemplate
