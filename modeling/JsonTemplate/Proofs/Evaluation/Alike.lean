import JsonTemplate.Proofs.Evaluation.Readings
import JsonTemplate.Proofs.Value.Operations
import Mathlib.Data.List.Forall2

/-!
# Computations that run alike

Two computations run alike if from states in a relation they end with the same result or the same
error, in states that are in the relation again, or both do not end. Every construct of the
language takes parts that run alike to wholes that run alike, as long as looking up a name cannot
tell related bindings apart and binding a name on both sides keeps them related. What is said at the
same time of all errors, and of the ways in which statements end, holds of the whole if it holds of
the parts and of what the construct itself raises.

The first computation may also be diverted by an error of a given kind, and then nothing is said of
the second. No construct recovers from an error, so the whole is diverted as well.

Only the readings that a construct uses have to be alike, so the same theorem tells which of them
a construct depends on.
-/

namespace JsonTemplate

namespace Run

variable {σ σ' τ τ' α β : Type} {R : σ → τ → Prop} {S : σ' → τ' → Prop}
  {D E : EvalError → Prop} {P : α → Prop} {Q : β → Prop}

/-- Two outcomes with the same end, of which something is known, and related states, or both without
an end; or the first is diverted. -/
inductive SameEnd (R : σ → τ → Prop) (D E : EvalError → Prop) (P : α → Prop) :
    Option (Except EvalError α × σ) → Option (Except EvalError α × τ) → Prop
  | unfinished : SameEnd R D E P none none
  | ended {result : Except EvalError α} {s : σ} {t : τ} :
      Admits E P result → R s t → SameEnd R D E P (some (result, s)) (some (result, t))
  | diverted {error : EvalError} {s : σ} {other : Option (Except EvalError α × τ)} :
      D error → SameEnd R D E P (some (.error error, s)) other

/-- Computations that have the same end from related states, or both no end, unless the first is
diverted. -/
def Alike (R : σ → τ → Prop) (D E : EvalError → Prop) (P : α → Prop) (run : Run σ α)
    (other : Run τ α) : Prop :=
  ∀ s t, R s t → SameEnd R D E P (run s) (other t)

namespace Alike

/-- Giving an admitted result is alike from related states. -/
protected theorem pure {result : α} (h : P result) :
    (pure result : Run σ α).Alike R D E P (pure result) :=
  fun _ _ hst => .ended h hst

/-- Failing with an admitted error is alike from related states. -/
protected theorem throw {error : EvalError} (h : E error) :
    (throw error : Run σ α).Alike R D E P (throw error) :=
  fun _ _ hst => .ended h hst

/-- Two computations that do not end are alike. -/
protected theorem unfinished : (unfinished : Run σ α).Alike R D E P unfinished :=
  fun _ _ _ => .unfinished

/-- Setting related states is alike. -/
protected theorem set {state : σ} {other : τ} (h : R state other) :
    (set state : Run σ PUnit).Alike R D E (fun _ => True) (set other) :=
  fun _ _ _ => .ended trivial h

/-- Changing related states to related ones is alike. -/
protected theorem modify {f : σ → σ} {g : τ → τ} (h : ∀ s t, R s t → R (f s) (g t)) :
    (modify f : Run σ PUnit).Alike R D E (fun _ => True) (modify g) :=
  fun s t hst => .ended trivial (h s t hst)

/-- A pure step with an admitted result is alike from related states. -/
protected theorem lift {result : Except EvalError α} (h : Admits E P result) :
    (lift result : Run σ α).Alike R D E P (lift result) := by
  intro s t hst
  rw [lift_apply, lift_apply]
  exact .ended h hst

/-- Computations in a row are alike if they are so one by one. -/
protected theorem bind {run : Run σ α} {other : Run τ α} {next : α → Run σ β}
    {otherNext : α → Run τ β} (h : run.Alike R D E P other)
    (hnext : ∀ result, P result → (next result).Alike R D E Q (otherNext result)) :
    (run >>= next).Alike R D E Q (other >>= otherNext) := by
  intro s t hst
  rw [bind_apply, bind_apply]
  have hends := h s t hst
  generalize run s = outcome, other t = outcome' at hends
  cases hends with
  | unfinished => exact .unfinished
  | diverted herror => exact .diverted herror
  | @ended result s' t' hadmits hstate =>
    cases result with
    | ok value => exact hnext value hadmits s' t' hstate
    | error error => exact .ended hadmits hstate

/-- What follows the reading of the state has to run alike for all related states. -/
protected theorem get_bind {next : σ → Run σ α} {otherNext : τ → Run τ α}
    (h : ∀ s t, R s t → (next s).Alike R D E P (otherNext t)) :
    (get >>= next).Alike R D E P (get >>= otherNext) :=
  fun s t hst => h s t hst s t hst

/-- Computations on related parts of the states are alike if they are so on the parts. -/
protected theorem focus {enter : σ → σ'} {leave : σ' → σ → σ} {otherEnter : τ → τ'}
    {otherLeave : τ' → τ → τ} {run : Run σ' α} {other : Run τ' α}
    (henter : ∀ s t, R s t → S (enter s) (otherEnter t))
    (hleave : ∀ s' t' s t, S s' t' → R s t → R (leave s' s) (otherLeave t' t))
    (h : run.Alike S D E P other) :
    (focus enter leave run).Alike R D E P (focus otherEnter otherLeave other) := by
  intro s t hst
  have hends := h _ _ (henter s t hst)
  rw [focus, focus]
  generalize run (enter s) = outcome, other (otherEnter t) = outcome' at hends
  cases hends with
  | unfinished => exact .unfinished
  | diverted herror => exact .diverted herror
  | ended hadmits hstate => exact .ended hadmits (hleave _ _ _ _ hstate hst)

end Alike

end Run

/-- Frames with related bindings and the same output, in equally many loops. -/
structure Frame.Alike (R : Environment → Environment → Prop) (frame other : Frame) : Prop where
  environment : R frame.environment other.environment
  output : frame.output = other.output
  loopDepth : frame.loopDepth = other.loopDepth

/-- A relation of bindings that looking up a name cannot tell apart, with what is said of errors and
of the ways in which statements end: operations on values may fail, and statements may end normally
or by returning a value. -/
structure Simulation (R : Environment → Environment → Prop) (E : EvalError → Prop)
    (F : Flow → Prop) : Prop where
  empty : R .empty .empty
  lookup? : ∀ {environment other}, R environment other → ∀ name,
    environment.lookup? name = other.lookup? name
  operation : ∀ error, error.IsOperation → E error
  proceed : F .proceed
  return_ : ∀ value, F (.return_ value)

/-- Bindings stay related when a name is bound on both sides. -/
def BindsAlike (R : Environment → Environment → Prop) : Prop :=
  ∀ {environment other}, R environment other → ∀ name value,
    R (environment.define name value) (other.define name value)

section

variable {R : Environment → Environment → Prop} {S : Frame → Frame → Prop}
  {D E : EvalError → Prop} {F G : Flow → Prop}

/-- A simulation admits all that operations give. -/
theorem Simulation.admits (sim : Simulation R E F) {α : Type} {P : α → Prop}
    {result : Except EvalError α} (h : Admits EvalError.IsOperation P result) :
    Admits E (fun _ => True) result :=
  h.mono sim.operation fun _ _ => trivial

namespace Eval

variable {α : Type} {P : α → Prop}

/-- Binding a name is alike on related frames. -/
theorem alike_define (hbinds : BindsAlike R) (name : String) (value : Value) :
    (define name value).Alike (Frame.Alike R) D E (fun _ => True) (define name value) :=
  .modify fun _ _ h => ⟨hbinds h.environment name value, h.output, h.loopDepth⟩

/-- Putting a value out is alike on related frames. -/
theorem alike_emit (value : Value) :
    (emit value).Alike (Frame.Alike R) D E (fun _ => True) (emit value) :=
  .modify fun _ _ h => ⟨h.environment, congrArg (·.push value) h.output, h.loopDepth⟩

/-- Looking up a name is alike on related frames. -/
theorem alike_lookup (sim : Simulation R E F) (name : String) (h : E (.unboundVariable name)) :
    (lookup name).Alike (Frame.Alike R) D E (fun _ => True) (lookup name) := by
  refine .get_bind fun frame other hframe => ?_
  rw [sim.lookup? hframe.environment]
  split
  · exact .pure trivial
  · exact .throw h

/-- Building inside related frames is alike if it is so on related bindings. -/
theorem alike_onEnvironment {build other : Build α} (h : build.Alike R D E P other) :
    (onEnvironment build).Alike (Frame.Alike R) D E P (onEnvironment other) :=
  .focus (fun _ _ h => h.environment) (fun _ _ _ _ hinner h => ⟨hinner, h.output, h.loopDepth⟩) h

/-- Loops are alike if what runs in them is. -/
theorem alike_inLoop {eval other : Eval α} (h : eval.Alike (Frame.Alike R) D E P other) :
    (inLoop eval).Alike (Frame.Alike R) D E P (inLoop other) :=
  .focus (fun _ _ h => ⟨h.environment, h.output, congrArg (· + 1) h.loopDepth⟩)
    (fun _ _ _ _ h _ => ⟨h.environment, h.output, congrArg (· - 1) h.loopDepth⟩) h

end Eval

/-- Evaluating in a new frame is alike on related bindings if it is so in related frames. -/
theorem Build.alike_inFrame {α : Type} {P : α → Prop} {eval other : Eval α}
    (h : eval.Alike (Frame.Alike R) D E P other) : (inFrame eval).Alike R D E P (inFrame other) :=
  .focus (fun _ _ h => ⟨h, rfl, rfl⟩) (fun _ _ _ _ h _ => h.environment) h

namespace Meaning

/-- Starting to build is alike on related bindings. -/
theorem alike_start (sim : Simulation R E F) (scope : Scope) :
    (start scope).Alike R D E (fun _ => True) (start scope) := by
  cases scope with
  | root => exact .set sim.empty
  | nested => exact .pure trivial

/-- Converting a value to JSON is alike from any related states. -/
theorem alike_jsonOf (sim : Simulation R E F) {σ τ : Type} {I : σ → τ → Prop} (value : Value) :
    (jsonOf value : Run σ Json).Alike I D E (fun _ => True) (jsonOf value) :=
  .lift (sim.admits value.operates_toJson)

/-- Putting out what is evaluated is alike if evaluating it is. -/
theorem alike_emitting (hproceed : F .proceed)
    (hemit : ∀ value, (Eval.emit value).Alike S D E (fun _ => True) (Eval.emit value))
    {value other : Eval Value} (h : value.Alike S D E (fun _ => True) other) :
    (emitting value).Alike S D E F (emitting other) :=
  .bind h fun value _ => .bind (hemit value) fun _ _ => .pure hproceed

/-- The values of statements are alike if the statements are. -/
theorem alike_valueOf {statement other : Eval Flow} (h : statement.Alike S D E F other) :
    (valueOf statement).Alike S D E (fun _ => True) (valueOf other) :=
  .bind h fun flow _ => by cases flow <;> exact .pure trivial

/-- A path is alike from related states, and finds what it finds in the object alone. -/
theorem alike_resolve {path : List Accessor} {this : This}
    (hnone : this = none → E .thisOutsideObject) (hsome : this ≠ none → E (.unresolvedPath path)) :
    (resolve path this).Alike S D E (fun _ => True) (resolve path this) := by
  cases this with
  | none => exact .throw (hnone rfl)
  | some members =>
    unfold resolve
    dsimp only
    split
    · exact .pure trivial
    · exact .throw (hsome nofun)

/-- Taking a value as an integer gives nothing but errors of its type. -/
theorem admits_asInteger {use : OperandUse} (h : ∀ type, E (.operandType use type))
    (value : Value) : Admits E (fun _ => True) (value.asInteger use) := by
  cases value with
  | integer value => trivial
  | _ => exact h _

/-- Building members is alike if it is so one by one. -/
theorem alike_buildMembers {S : Environment → Environment → Prop} {scope : Scope}
    {members others : List (String × Meaning)}
    (h : List.Forall₂ (fun member other => member.1 = other.1 ∧ ∀ sofar,
      (member.2.build scope (some sofar)).Alike S D E (fun _ => True)
        (other.2.build scope (some sofar))) members others) (sofar : List (String × Json)) :
    (buildMembers scope sofar members).Alike S D E (fun _ => True)
      (buildMembers scope sofar others) := by
  induction h generalizing sofar with
  | nil => exact .pure trivial
  | @cons member other members others hmember _ ih =>
    obtain ⟨name, member⟩ := member
    obtain ⟨_, other⟩ := other
    obtain ⟨rfl, hmember⟩ := hmember
    exact .bind (hmember sofar) fun value _ => ih _

/-- Collecting items is alike if it is so one by one. -/
theorem alike_collect {σ τ : Type} {S : σ → τ → Prop} {step : Meaning → Run σ Json}
    {otherStep : Meaning → Run τ Json} {elements others : List Meaning}
    (h : List.Forall₂ (fun element other =>
      (step element).Alike S D E (fun _ => True) (otherStep other)) elements others) :
    (collect step elements).Alike S D E (fun _ => True) (collect otherStep others) := by
  induction h with
  | nil => exact .pure trivial
  | cons helement _ ih => exact .bind helement fun _ _ => .bind ih fun _ _ => .pure trivial

/-- Statements in a row are alike if they are so one by one. -/
theorem alike_statements (hproceed : F .proceed) {this : This} {statements others : List Meaning}
    (h : List.Forall₂ (fun statement other =>
      (statement.execute this).Alike S D E F (other.execute this)) statements others) :
    (sequence this statements).Alike S D E F (sequence this others) := by
  induction h with
  | nil => exact .pure hproceed
  | cons hstatement _ ih =>
    refine .bind hstatement fun flow hflow => ?_
    cases flow with
    | proceed => exact ih
    | _ => exact .pure hflow

/-- Statements in a row are alike in a simulation if they are so one by one. -/
theorem alike_sequence (sim : Simulation R E F) {this : This} {statements others : List Meaning}
    (h : List.Forall₂ (fun statement other =>
      (statement.execute this).Alike (Frame.Alike R) D E F (other.execute this))
        statements others) :
    (sequence this statements).Alike (Frame.Alike R) D E F (sequence this others) :=
  alike_statements sim.proceed h

/-- Choices are alike if their conditions and bodies are. -/
theorem alike_choose (hproceed : F .proceed) {this : This}
    {cases others : List (Meaning × Meaning)} {otherwise otherOtherwise : Option Meaning}
    (hcases : List.Forall₂ (fun case other =>
      (case.1.evaluate this).Alike S D E (fun _ => True) (other.1.evaluate this) ∧
        (case.2.execute this).Alike S D E F (other.2.execute this)) cases others)
    (hotherwise : Option.Rel (fun body other =>
      (body.execute this).Alike S D E F (other.execute this)) otherwise otherOtherwise) :
    (choose this otherwise cases).Alike S D E F (choose this otherOtherwise others) := by
  induction hcases with
  | nil =>
    cases hotherwise with
    | none => exact .pure hproceed
    | some hbody => exact hbody
  | cons hcase _ ih =>
    refine .bind hcase.1 fun value _ => ?_
    split
    · exact hcase.2
    · exact ih

/-- Calls of blocks are alike if their statements are, and leave no loop that is not there. -/
theorem alike_callBlock (hbreak : F .break_ → E .breakOutsideLoop)
    (hcontinue : F .continue_ → E .continueOutsideLoop) {this : This}
    {statements others : List Meaning}
    (h : (sequence this statements).Alike (Frame.Alike R) D E F (sequence this others)) :
    (callBlock statements this).Alike R D E (fun _ => True) (callBlock others this) := by
  refine Build.alike_inFrame (.bind h fun flow hflow => ?_)
  cases flow with
  | proceed =>
    refine .get_bind fun frame other hframe => ?_
    rw [hframe.output]
    exact .pure trivial
  | return_ value => exact .pure trivial
  | break_ => exact .throw (hbreak hflow)
  | continue_ => exact .throw (hcontinue hflow)

/-- A loop ends normally or returns; what is said of its body is said of it in these two cases. -/
theorem alike_whileLoop (hproceed : G .proceed) (hreturn : ∀ value, F (.return_ value) →
    G (.return_ value)) {condition otherCondition : Eval Value} {body otherBody : Eval Flow}
    (hcondition : condition.Alike S D E (fun _ => True) otherCondition)
    (hbody : body.Alike S D E F otherBody) (rounds : Nat) :
    (whileLoop condition body rounds).Alike S D E G
      (whileLoop otherCondition otherBody rounds) := by
  induction rounds with
  | zero => exact .unfinished
  | succ rounds ih =>
    refine .bind hcondition fun value _ => ?_
    split
    · refine .bind hbody fun flow hflow => ?_
      cases flow with
      | proceed | continue_ => exact ih
      | break_ => exact .pure hproceed
      | return_ value => exact .pure (hreturn value hflow)
    · exact .pure hproceed

/-- A round of a counting loop starts with a binding, so that what has to run alike is the binding
with the body after it. -/
theorem alike_countLoop (hproceed : G .proceed) (hreturn : ∀ value, F (.return_ value) →
    G (.return_ value)) (name : String) {body other : Eval Flow}
    (h : ∀ value, (Eval.define name value >>= fun _ => body).Alike S D E F
      (Eval.define name value >>= fun _ => other)) (stop step current : Int64) :
    (countLoop name body stop step current).Alike S D E G
      (countLoop name other stop step current) := by
  fun_induction countLoop name body stop step current with
  | case1 current hrange ih =>
    rw [countLoop, dif_pos hrange, ← bind_assoc, ← bind_assoc]
    refine .bind (h _) fun flow hflow => ?_
    cases flow with
    | proceed | continue_ =>
      dsimp only
      split
      · rename_i next hnext
        exact ih next hnext
      · exact .pure hproceed
    | break_ => exact .pure hproceed
    | return_ value => exact .pure (hreturn value hflow)
  | case2 current hrange =>
    rw [countLoop, dif_neg hrange]
    exact .pure hproceed

/-- The steps of loops are alike if they are evaluated alike. -/
theorem alike_stepOf {this : This} {step other : Option Meaning}
    (hinteger : ∀ type, E (.operandType .loopStep type))
    (h : Option.Rel (fun given other =>
      (given.evaluate this).Alike S D E (fun _ => True) (other.evaluate this)) step other) :
    (stepOf this step).Alike S D E (fun _ => True) (stepOf this other) := by
  cases h with
  | none => exact .pure trivial
  | some hstep => exact .bind hstep fun value _ => .lift (admits_asInteger hinteger value)

end Meaning

/-- States that are alike for a reading in a mode. -/
def Mode.Alike (R : Environment → Environment → Prop) :
    (mode : Mode) → mode.State → mode.State → Prop
  | .evaluate _ | .execute _ => Frame.Alike R
  | .build _ _ => R

/-- What is said of the result of a reading. -/
def Mode.Admits (F : Flow → Prop) : (mode : Mode) → mode.Result → Prop
  | .execute _ => F
  | .evaluate _ | .build _ _ => fun _ => True

/-- No mode asks for anything if nothing is asked for. -/
theorem Mode.admits_true (mode : Mode) : mode.Admits (fun _ => True) = fun _ => True := by
  cases mode <;> rfl

/-- Meanings whose readings in a mode run alike. -/
def Meaning.AlikeIn (R : Environment → Environment → Prop) (D E : EvalError → Prop)
    (F : Flow → Prop) (mode : Mode) (meaning other : Meaning) : Prop :=
  (meaning.read mode).Alike (mode.Alike R) D E (mode.Admits F) (other.read mode)

/-- Nothing is related but equal bindings; what is said of errors and of statements is open. -/
theorem simulation_eq (hoperation : ∀ error, error.IsOperation → E error) (hproceed : F .proceed)
    (hreturn : ∀ value, F (.return_ value)) : Simulation Eq E F where
  empty := rfl
  lookup? h _ := by rw [h]
  operation := hoperation
  proceed := hproceed
  return_ := hreturn

/-- Bindings that are equal stay equal when a name is bound. -/
theorem bindsAlike_eq : BindsAlike Eq := by
  rintro environment _ rfl name value
  rfl

/-- Frames are related by equality if they are equal. -/
theorem Frame.alike_eq_iff {frame other : Frame} : frame.Alike Eq other ↔ frame = other := by
  constructor
  · intro h
    obtain ⟨environment, output, loopDepth⟩ := frame
    obtain ⟨rfl, rfl, rfl⟩ := h
    rfl
  · rintro rfl
    exact ⟨rfl, rfl, rfl⟩

/-- States of a mode are related by equality if they are equal. -/
theorem Mode.alike_eq_iff {mode : Mode} {state other : mode.State} :
    mode.Alike Eq state other ↔ state = other := by
  cases mode with
  | evaluate this | execute this => exact Frame.alike_eq_iff
  | build scope this => exact Iff.rfl

/-- Readings with the same outcome from each state that does not divert the first run alike. -/
theorem Meaning.alikeIn_eq {mode : Mode} {meaning other : Meaning}
    (h : ∀ state, (∃ error after, D error ∧ meaning.read mode state = some (.error error, after)) ∨
      meaning.read mode state = other.read mode state) :
    AlikeIn Eq D (fun _ => True) (fun _ => True) mode meaning other := by
  intro state _ hstate
  obtain rfl := Mode.alike_eq_iff.mp hstate
  rcases h state with ⟨error, after, herror, hread⟩ | hread
  · rw [hread]
    exact .diverted herror
  · rw [hread]
    cases other.read mode state with
    | none => exact .unfinished
    | some outcome =>
      refine .ended ?_ (Mode.alike_eq_iff.mpr rfl)
      rw [Mode.admits_true]
      cases outcome.1 <;> trivial

/-- The outcome of a reading that runs alike with another from equal states is that of the other,
or the reading is diverted. -/
theorem Meaning.AlikeIn.diverted_or_eq {mode : Mode} {meaning other : Meaning}
    (h : AlikeIn Eq D E F mode meaning other) (state : mode.State) :
    (∃ error after, D error ∧ meaning.read mode state = some (.error error, after)) ∨
      meaning.read mode state = other.read mode state := by
  have hends := h state state (Mode.alike_eq_iff.mpr rfl)
  generalize meaning.read mode state = outcome, other.read mode state = outcome' at hends ⊢
  cases hends with
  | unfinished => exact Or.inr rfl
  | diverted herror => exact Or.inl ⟨_, _, herror, rfl⟩
  | ended _ hstate => exact Or.inr (by rw [Mode.alike_eq_iff.mp hstate])

namespace Meaning

/-- A literal is alike in every mode. -/
theorem alikeIn_literal (sim : Simulation R E F) (mode : Mode) (value : Value) (json : Json) :
    AlikeIn R D E F mode (literal value json) (literal value json) := by
  cases mode with
  | evaluate this => exact .pure trivial
  | execute this => exact alike_emitting sim.proceed Eval.alike_emit (.pure trivial)
  | build scope this => exact .pure trivial

/-- Building what is evaluated is alike if evaluating it is. -/
theorem alike_building (sim : Simulation R E F) {evaluate other : This → Eval Value}
    (h : (evaluate none).Alike (Frame.Alike R) D E (fun _ => True) (other none)) (scope : Scope)
    (this : This) :
    (building evaluate scope this).Alike R D E (fun _ => True) (building other scope this) :=
  .bind (alike_start sim scope) fun _ _ =>
    .bind (Build.alike_inFrame h) fun value _ => alike_jsonOf sim value

/-- Expressions are alike in a mode if they are evaluated alike. -/
theorem alikeIn_ofExpression (sim : Simulation R E F) {mode : Mode}
    {evaluate other : This → Eval Value}
    (h : (evaluate mode.object).Alike (Frame.Alike R) D E (fun _ => True) (other mode.object)) :
    AlikeIn R D E F mode (ofExpression evaluate) (ofExpression other) := by
  cases mode with
  | evaluate this => exact h
  | execute this => exact alike_emitting sim.proceed Eval.alike_emit h
  | build scope this => exact alike_building sim h scope this

/-- Statements are alike in a mode if they are executed alike. -/
theorem alikeIn_ofStatement (sim : Simulation R E F) {mode : Mode}
    {execute other : This → Eval Flow}
    (h : (execute mode.object).Alike (Frame.Alike R) D E F (other mode.object)) :
    AlikeIn R D E F mode (ofStatement execute) (ofStatement other) := by
  cases mode with
  | evaluate this => exact alike_valueOf h
  | execute this => exact h
  | build scope this =>
    change (building (fun this => valueOf (execute this)) scope this).Alike R D E (fun _ => True)
      (building (fun this => valueOf (other this)) scope this)
    exact alike_building sim (alike_valueOf h) scope this

/-- Objects are alike in a mode if their members are built alike. -/
theorem alikeIn_object (sim : Simulation R E F) {mode : Mode}
    {members others : List (String × Meaning)}
    (h : List.Forall₂ (fun member other => member.1 = other.1 ∧ ∀ sofar,
      AlikeIn R D E F (.build mode.scope (some sofar)) member.2 other.2) members others) :
    AlikeIn R D E F mode (object members) (object others) := by
  have hvalue (hnested : mode.scope = .nested) :
      (objectValue members).Alike (Frame.Alike R) D E (fun _ => True) (objectValue others) := by
    rw [hnested] at h
    exact .bind (Eval.alike_onEnvironment (alike_buildMembers h [])) fun _ _ => .pure trivial
  cases mode with
  | evaluate this => exact hvalue rfl
  | execute this => exact alike_emitting sim.proceed Eval.alike_emit (hvalue rfl)
  | build scope this => exact alike_buildMembers h []

/-- Blocks are alike in a mode if their statements are executed alike. -/
theorem alikeIn_block (sim : Simulation R E F) (hbreak : F .break_ → E .breakOutsideLoop)
    (hcontinue : F .continue_ → E .continueOutsideLoop) {mode : Mode}
    {statements others : List Meaning}
    (h : List.Forall₂ (AlikeIn R D E F (.execute mode.this)) statements others) :
    AlikeIn R D E F mode (block statements) (block others) := by
  have hsequence := alike_sequence sim h
  have hcall := alike_callBlock hbreak hcontinue hsequence
  cases mode with
  | evaluate this => exact Eval.alike_onEnvironment hcall
  | execute this => exact hsequence
  | build scope this =>
    exact .bind (alike_start sim scope) fun _ _ =>
      .bind hcall fun value _ => alike_jsonOf sim value

/-- Arrays are built alike if their elements are. -/
theorem alikeIn_array_build {scope : Scope} {this : This} {elements others : List Meaning}
    (h : List.Forall₂ (AlikeIn R D E F (.build scope none)) elements others) :
    AlikeIn R D E F (.build scope this) (array elements) (array others) :=
  .bind (alike_collect h) fun _ _ => .pure trivial

/-- Arrays are evaluated alike if their elements are. -/
theorem alike_arrayValue (sim : Simulation R E F) {this : This} {elements others : List Meaning}
    (h : List.Forall₂ (AlikeIn R D E F (.evaluate this)) elements others) :
    (arrayValue elements this).Alike (Frame.Alike R) D E (fun _ => True) (arrayValue others this) :=
  .bind (alike_collect (h.imp fun _ _ helement =>
    .bind helement fun value _ => alike_jsonOf sim value)) fun _ _ => .pure trivial

/-- Loops that count are alike if their bounds and steps are, and their rounds as well. -/
theorem alikeIn_for (sim : Simulation R E F) (hzero : E .zeroStep)
    (hbound : ∀ type, E (.operandType .loopBound type))
    (hstep : ∀ type, E (.operandType .loopStep type)) {mode : Mode} (name : String)
    {start stop body otherStart otherStop otherBody : Meaning} {step otherStep : Option Meaning}
    (hstart : AlikeIn R D E F (.evaluate mode.object) start otherStart)
    (hstop : AlikeIn R D E F (.evaluate mode.object) stop otherStop)
    (hgiven : Option.Rel (AlikeIn R D E F (.evaluate mode.object)) step otherStep)
    (hbody : ∀ value, (Eval.define name value >>= fun _ => body.execute mode.object).Alike
      (Frame.Alike R) D E F (Eval.define name value >>= fun _ => otherBody.execute mode.object)) :
    AlikeIn R D E F mode (for_ name start stop step body)
      (for_ name otherStart otherStop otherStep otherBody) := by
  refine alikeIn_ofStatement sim (Eval.alike_inLoop ?_)
  refine .bind hstart fun first _ => .bind (.lift (admits_asInteger hbound first)) fun first _ => ?_
  refine .bind hstop fun last _ => .bind (.lift (admits_asInteger hbound last)) fun last _ => ?_
  refine .bind (alike_stepOf hstep hgiven) fun step _ => ?_
  split
  · exact .throw hzero
  · exact alike_countLoop sim.proceed (fun _ h => h) name hbody last step first

/-- Leaving a loop is alike in every mode. -/
theorem alikeIn_leave (sim : Simulation R E F) {mode : Mode} {flow : Flow} {outside : EvalError}
    (hflow : F flow) (houtside : E outside) :
    AlikeIn R D E F mode (leave flow outside) (leave flow outside) := by
  refine alikeIn_ofStatement sim (.get_bind fun frame other hframe => ?_)
  rw [hframe.loopDepth]
  split
  · exact .pure hflow
  · exact .throw houtside

end Meaning

/-- Two lists made index by index are related if they are so at each index. -/
theorem forall₂_mapIdx {α β γ : Type} {P : β → γ → Prop} {list : List α} {f : Nat → α → β}
    {g : Nat → α → γ} (h : ∀ i (hi : i < list.length), P (f i list[i]) (g i list[i])) :
    List.Forall₂ P (list.mapIdx f) (list.mapIdx g) := by
  induction list generalizing f g with
  | nil => exact .nil
  | cons first rest ih =>
    rw [List.mapIdx_cons, List.mapIdx_cons]
    exact .cons (h 0 (Nat.zero_lt_succ _)) (ih fun i hi => h (i + 1) (Nat.succ_lt_succ hi))

namespace Node

/-- What a node itself adds to the errors of its parts, and to their ways of ending, is
admitted. -/
def Permits (E : EvalError → Prop) (F : Flow → Prop) : Node → Mode → Prop
  | lookup name, _ => E (.unboundVariable name)
  | this path, mode =>
    (mode.object = none → E .thisOutsideObject) ∧ (mode.object ≠ none → E (.unresolvedPath path))
  | block _, _ => (F .break_ → E .breakOutsideLoop) ∧ (F .continue_ → E .continueOutsideLoop)
  | for_ _ _ _ _ _, _ =>
    E .zeroStep ∧ ∀ type, E (.operandType .loopBound type) ∧ E (.operandType .loopStep type)
  | break_, _ => F .break_ ∧ E .breakOutsideLoop
  | continue_, _ => F .continue_ ∧ E .continueOutsideLoop
  | _, _ => True

/-- Every node permits everything if nothing is asked for. -/
theorem permits_true (node : Node) (mode : Mode) :
    node.Permits (fun _ => True) (fun _ => True) mode := by
  cases node <;> simp [Permits]

/-- A node that binds a name itself. -/
def Binds : Node → Prop
  | assign _ _ | for_ _ _ _ _ _ => True
  | _ => False

/-- A node whose parts run alike in the modes that it uses runs alike. -/
theorem alikeIn_assemble (sim : Simulation R E F) {node : Node} (hbinds : node.Binds → BindsAlike R)
    {mode : Mode}
    (hpermits : node.Permits E F mode) (rounds : Nat) {part other : Nat → Meaning}
    (hparts : ∀ i < node.parts.length, ∀ used, node.Uses mode used →
      Meaning.AlikeIn R D E F used (part i) (other i)) :
    Meaning.AlikeIn R D E F mode (node.assemble rounds part) (node.assemble rounds other) := by
  cases node with
  | object members =>
    refine Meaning.alikeIn_object sim (forall₂_mapIdx fun i hi => ⟨rfl, fun sofar => ?_⟩)
    exact hparts i (by simpa [parts] using hi) _ ⟨sofar, rfl⟩
  | array elements =>
    cases mode with
    | evaluate this =>
      exact Meaning.alike_arrayValue sim (forall₂_mapIdx fun i hi => hparts i hi _ (Or.inl rfl))
    | execute this =>
      exact Meaning.alike_emitting sim.proceed Eval.alike_emit <|
        Meaning.alike_arrayValue sim (forall₂_mapIdx fun i hi => hparts i hi _ (Or.inl rfl))
    | build scope this =>
      exact Meaning.alikeIn_array_build (forall₂_mapIdx fun i hi => hparts i hi _ rfl)
  | block statements =>
    exact Meaning.alikeIn_block sim hpermits.1 hpermits.2
      (forall₂_mapIdx fun i hi => hparts i hi _ rfl)
  | string | integer | boolean | null => exact Meaning.alikeIn_literal sim mode _ _
  | float value => exact Meaning.alikeIn_ofExpression sim (.pure trivial)
  | lookup name => exact Meaning.alikeIn_ofExpression sim (Eval.alike_lookup sim name hpermits)
  | this path =>
    exact Meaning.alikeIn_ofExpression sim (Meaning.alike_resolve hpermits.1 hpermits.2)
  | break_ | continue_ => exact Meaning.alikeIn_leave sim hpermits.1 hpermits.2
  | assign name value =>
    refine Meaning.alikeIn_ofStatement sim (.bind (hparts 0 Nat.zero_lt_one _ (Or.inl rfl)) ?_)
    exact fun value _ =>
      .bind (Eval.alike_define (hbinds trivial) name value) fun _ _ => .pure sim.proceed
  | return_ value =>
    refine Meaning.alikeIn_ofStatement sim (.bind (hparts 0 Nat.zero_lt_one _ (Or.inl rfl)) ?_)
    exact fun value _ => .pure (sim.return_ value)
  | negate operand =>
    refine Meaning.alikeIn_ofExpression sim (.bind (hparts 0 Nat.zero_lt_one _ (Or.inl rfl)) ?_)
    exact fun operand _ => .lift (sim.admits operand.operates_neg)
  | binary operator left right =>
    refine Meaning.alikeIn_ofExpression sim
      (.bind (hparts 0 Nat.zero_lt_two _ (Or.inl rfl)) fun l _ => ?_)
    exact .bind (hparts 1 Nat.one_lt_two _ (Or.inl rfl)) fun r _ =>
      .lift (sim.admits (Value.operates_apply operator l r))
  | while_ condition body =>
    exact Meaning.alikeIn_ofStatement sim <| Eval.alike_inLoop <|
      Meaning.alike_whileLoop sim.proceed (fun _ h => h) (hparts 0 Nat.zero_lt_two _ (Or.inl rfl))
        (hparts 1 Nat.one_lt_two _ (Or.inr rfl)) rounds
  | for_ name start stop step body =>
    obtain ⟨hzero, hinteger⟩ := hpermits
    have hevaluate (i : Nat) (hi : i < _) := hparts i hi _ (Or.inl rfl)
    have hbody (i : Nat) (hi : i < _) (value : Value) :
        (Eval.define name value >>= fun _ => (part i).execute mode.object).Alike (Frame.Alike R)
          D E F (Eval.define name value >>= fun _ => (other i).execute mode.object) :=
      .bind (Eval.alike_define (hbinds trivial) name value) fun _ _ => hparts i hi _ (Or.inr rfl)
    cases step with
    | none =>
      exact Meaning.alikeIn_for sim hzero (fun type => (hinteger type).1)
        (fun type => (hinteger type).2) name (hevaluate 0 (by simp [parts]))
        (hevaluate 1 (by simp [parts])) .none (hbody 2 (by simp [parts]))
    | some step =>
      exact Meaning.alikeIn_for sim hzero (fun type => (hinteger type).1)
        (fun type => (hinteger type).2) name (hevaluate 0 (by simp [parts]))
        (hevaluate 1 (by simp [parts])) (.some (hevaluate 2 (by simp [parts])))
        (hbody 3 (by simp [parts]))
  | cond cases otherwise =>
    have hlength := length_parts_cond cases otherwise
    refine Meaning.alikeIn_ofStatement sim (Meaning.alike_choose sim.proceed (forall₂_mapIdx ?_) ?_)
    · intro i hi
      exact ⟨hparts (2 * i) (by omega) _ (Or.inl rfl), hparts (2 * i + 1) (by omega) _ (Or.inr rfl)⟩
    · cases otherwise with
      | none => exact .none
      | some body =>
        exact .some (hparts (2 * cases.length) (by simp [hlength]) _ (Or.inr rfl))

/-- A tree runs like itself, and what is said of errors and of statements holds, if a condition
that admits what each node adds passes on to the parts in the modes that they are read in. -/
theorem alikeIn_meaning (sim : Simulation R E F) (hbinds : BindsAlike R) {C : Node → Mode → Prop}
    (hpermits : ∀ node mode, C node mode → node.Permits E F mode)
    (hpart : ∀ node mode, C node mode → ∀ part ∈ node.parts, ∀ used, node.Uses mode used →
      C part used) (rounds : Nat) (node : Node) {mode : Mode} (h : C node mode) :
    Meaning.AlikeIn R D E F mode (node.meaning rounds) (node.meaning rounds) := by
  induction node using induction_parts generalizing mode with
  | step node ih =>
    rw [meaning_eq_assemble]
    refine alikeIn_assemble sim (fun _ => hbinds) (hpermits node mode h) rounds ?_
    intro i hi used hused
    have hmem : node.parts[i] ∈ node.parts := List.getElem_mem hi
    rw [meaningAt_of_getElem? (List.getElem?_eq_getElem hi)]
    exact ih _ hmem (hpart node mode h _ hmem used hused)

end Node

end

end JsonTemplate
