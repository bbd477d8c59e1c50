import JsonTemplate.Proofs.Evaluation.CountedRounds
import JsonTemplate.Proofs.Evaluation.OutputAndLoops
import JsonTemplate.Proofs.Evaluation.PartReadings

/-!
# What nodes call in good states

Where all operations keep a property of values, a node that is read in a state with the property
calls its parts only in states with the property, and so does every reading that is reached from
there. The error of a node is then one that its own construct raises, or that of a part that it
calls; which errors a construct may raise is a condition on the conversions to JSON, on negations,
on the operator of the node and on leaving a loop where there is none.

The number of loops around a part is that around the node, one more inside a loop, and none inside
an object literal or a callable block. All kinds of nodes are covered.
-/

namespace JsonTemplate

/-- The bindings that a part of a document starts from. -/
def Scope.enter : Scope → Environment → Environment
  | root, _ => .empty
  | nested, environment => environment

/-- The frame in which an expression or a statement is evaluated: the one of the block, or a new one
for a part of a document. -/
def Mode.frame : (mode : Mode) → mode.State → Frame
  | evaluate _, frame | execute _, frame => frame
  | build scope _, environment => ⟨scope.enter environment, #[], 0⟩

/-- The frame that a reading evaluates in. -/
def Task.frame (task : Task) : Frame := task.mode.frame task.state

section

variable (V : Value → Prop) (J : Json → Prop)

/-- All values in the state of a reading. -/
def Mode.StateAll : (mode : Mode) → mode.State → Prop
  | evaluate _ | execute _ => Frame.All V
  | build _ _ => Environment.All V

/-- The value or the JSON value that a reading gives. -/
def Mode.ResultAll : (mode : Mode) → mode.Result → Prop
  | evaluate _ => V
  | execute _ => Flow.All V
  | build _ _ => J

/-- All values that a reading starts from. -/
structure Task.All (task : Task) : Prop where
  this : This.All J task.mode.this
  state : task.mode.StateAll V task.state

end

section

variable {V : Value → Prop} {J : Json → Prop}

/-- A meaning that keeps kinds does so in all its readings. -/
theorem Meaning.Keeps.perform {meaning : Meaning} (h : meaning.Keeps V J) {task : Task}
    (htask : task.All V J) {result : Except EvalError task.mode.Result} {after : task.mode.State}
    (hperform : meaning.perform task = some (result, after)) :
    task.mode.StateAll V after ∧ IfOk (task.mode.ResultAll V J) result := by
  obtain ⟨mode, state⟩ := task
  cases mode with
  | evaluate this => exact h.evaluate this htask.this state htask.state _ _ hperform
  | execute this => exact h.execute this htask.this state htask.state _ _ hperform
  | build scope this => exact h.build scope this htask.this state htask.state _ _ hperform

/-- The bindings from which building starts are of the kind of those that are there. -/
theorem Scope.all_enter {environment : Environment} (h : environment.All V) (scope : Scope) :
    (scope.enter environment).All V := by
  cases scope with
  | root => exact Environment.all_empty
  | nested => exact h

/-- The bindings of a task of a kind are of that kind. -/
theorem Task.All.environment {task : Task} (h : task.All V J) : task.environment.All V := by
  obtain ⟨mode, state⟩ := task
  cases mode with
  | evaluate this | execute this => exact h.state.environment
  | build scope this => exact h.state

/-- The frame of a task of a kind is of that kind. -/
theorem Task.All.frame {task : Task} (h : task.All V J) : task.frame.All V := by
  obtain ⟨mode, state⟩ := task
  cases mode with
  | evaluate this | execute this => exact h.state
  | build scope this => exact ⟨Scope.all_enter h.state scope, nofun⟩

/-- The object of a task of a kind is of that kind. -/
theorem Task.All.object {task : Task} (h : task.All V J) : This.All J task.mode.object := by
  obtain ⟨mode, state⟩ := task
  cases mode with
  | evaluate this | execute this => exact h.this
  | build scope this => exact This.all_none

end

/-- An error in evaluating an expression is an error of each of its readings. -/
theorem Meaning.failsWith_ofExpression {evaluate : This → Eval Value} {task : Task}
    {error : EvalError}
    (h : ∃ after, evaluate task.mode.object task.frame = some (.error error, after)) :
    (ofExpression evaluate).FailsWith task error := by
  obtain ⟨mode, state⟩ := task
  obtain ⟨after, h⟩ := h
  cases mode with
  | evaluate this => exact ⟨after, h⟩
  | execute this => exact ⟨after, Run.bind_of_error h⟩
  | build scope this =>
    have hstart : start scope state = some (.ok (), scope.enter state) := by cases scope <;> rfl
    have hinner : Build.inFrame (evaluate none) (scope.enter state) =
        some (.error error, after.environment) := by
      rw [Build.inFrame, Run.focus]
      exact congrArg (Option.map _) h
    exact ⟨after.environment, (Run.bind_of_ok hstart).trans (Run.bind_of_error hinner)⟩

/-- An error in executing a statement is an error of each of its readings. -/
theorem Meaning.failsWith_ofStatement {execute : This → Eval Flow} {task : Task}
    {error : EvalError}
    (h : ∃ after, execute task.mode.object task.frame = some (.error error, after)) :
    (ofStatement execute).FailsWith task error := by
  obtain ⟨after, h⟩ := h
  have hvalue : (ofExpression fun this => valueOf (execute this)).FailsWith task error :=
    failsWith_ofExpression ⟨after, Run.bind_of_error h⟩
  obtain ⟨mode, state⟩ := task
  cases mode with
  | evaluate this => exact hvalue
  | execute this => exact ⟨after, h⟩
  | build scope this => exact hvalue

/-- A pure step changes nothing. -/
theorem Run.eq_of_lift {σ α : Type} {result : Except EvalError α} {outcome : Except EvalError α}
    {state after : σ} (h : Run.lift result state = some (outcome, after)) : after = state := by
  rw [Run.lift_apply] at h
  cases h
  rfl

/-- The errors of leaving a loop where there is none. -/
def EvalError.IsOfLeaving : EvalError → Prop
  | breakOutsideLoop | continueOutsideLoop => True
  | _ => False

/-- The errors that a construct may raise itself: all that are none of operations and none of
leaving a loop, and those of conversions and negations of values with a property. -/
structure RaisesOwn (V : Value → Prop) (E : EvalError → Prop) : Prop where
  other : ∀ error, ¬error.IsOperation → ¬error.IsOfLeaving → E error
  toJson : ∀ value, V value → Admits E (fun _ => True) value.toJson
  neg : ∀ operand, V operand → Admits E (fun _ => True) operand.neg

namespace Node

/-- A node that leaves a loop, with its error where there is none. -/
def LeavesWith : Node → EvalError → Prop
  | break_, error => error = .breakOutsideLoop
  | continue_, error => error = .continueOutsideLoop
  | _, _ => False

/-- The number of loops around the parts that a reading of a node calls. -/
def depthWithin (node : Node) (task : Task) : Nat :=
  match node, task.mode with
  | object _, _ => 0
  | block _, .evaluate _ => 0
  | while_ _ _, _ | for_ _ _ _ _ _, _ => task.frame.loopDepth + 1
  | _, _ => task.frame.loopDepth

end Node

/-- All values of a frame have a property, and so many loops are around. -/
structure Frame.AllAt (V : Value → Prop) (depth : Nat) (frame : Frame) : Prop where
  all : frame.All V
  loopDepth : frame.loopDepth = depth

/-- A meaning that keeps a property of values and the number of loops. -/
structure Meaning.KeepsFrame (V : Value → Prop) (J : Json → Prop) (meaning : Meaning) : Prop where
  keeps : meaning.Keeps V J
  runsBehind : meaning.RunsBehind

namespace Meaning.KeepsFrame

variable {V : Value → Prop} {J : Json → Prop} {meaning : Meaning}

/-- Evaluating keeps the kind of a frame and its depth. -/
theorem evaluate (h : meaning.KeepsFrame V J) {this : This} (hthis : This.All J this)
    (depth : Nat) : (meaning.evaluate this).Keeps (Frame.AllAt V depth) V := by
  intro frame hframe result after hrun
  obtain ⟨hall, hresult⟩ := h.keeps.evaluate this hthis frame hframe.all result after hrun
  have hdepth := ((h.runsBehind.evaluate this #[] depth).keeps frame hframe.loopDepth _ _ hrun).1
  exact ⟨⟨hall, hdepth⟩, hresult⟩

/-- Executing keeps the kind of a frame and its depth. -/
theorem execute (h : meaning.KeepsFrame V J) {this : This} (hthis : This.All J this)
    (depth : Nat) :
    (meaning.execute this).Keeps (Frame.AllAt V depth) (Flow.PossibleAt depth) := by
  intro frame hframe result after hrun
  have hall := (h.keeps.execute this hthis frame hframe.all result after hrun).1
  obtain ⟨hdepth, hflow⟩ :=
    (h.runsBehind.execute this #[] depth).keeps frame hframe.loopDepth _ _ hrun
  exact ⟨⟨hall, hdepth⟩, hflow⟩

end Meaning.KeepsFrame

namespace ReadsInTurn

variable {V : Value → Prop} {J : Json → Prop} {part : Nat → Meaning} {n depth : Nat}
  {E : EvalError → Prop}

/-- One of the first parts is read in a state with the property, within so many loops. -/
structure Within (V : Value → Prop) (J : Json → Prop) (n depth i : Nat) (called : Task) :
    Prop where
  lt : i < n
  all : called.All V J
  loopDepth : called.frame.loopDepth = depth

/-- A part is evaluated within the kinds of its frame. -/
theorem evaluated {i : Nat} (hi : i < n) {this : This} (hthis : This.All J this) {frame : Frame}
    (hframe : frame.AllAt V depth) :
    ReadsInTurn part (Within V J n depth) E fun other => (other i).evaluate this frame :=
  .reading (show Within V J n depth i ⟨.evaluate this, frame⟩ from
    ⟨hi, ⟨hthis, hframe.all⟩, hframe.loopDepth⟩)

/-- A part is executed within the kinds of its frame. -/
theorem executed {i : Nat} (hi : i < n) {this : This} (hthis : This.All J this) {frame : Frame}
    (hframe : frame.AllAt V depth) :
    ReadsInTurn part (Within V J n depth) E fun other => (other i).execute this frame :=
  .reading (show Within V J n depth i ⟨.execute this, frame⟩ from
    ⟨hi, ⟨hthis, hframe.all⟩, hframe.loopDepth⟩)

/-- A part is built within the kinds of its bindings. -/
theorem built {i : Nat} (hi : i < n) {scope : Scope} {this : This} (hthis : This.All J this)
    {environment : Environment} (henvironment : environment.All V) :
    ReadsInTurn part (Within V J n 0) E fun other => (other i).build scope this environment :=
  .reading (show Within V J n 0 i ⟨.build scope this, environment⟩ from
    ⟨hi, ⟨hthis, henvironment⟩, rfl⟩)

section

variable {G : Nat → Task → Prop}

/-- A pure step reads no parts. -/
theorem lift {σ α : Type} {result : Except EvalError α} {state : σ}
    (h : Admits E (fun _ => True) result) :
    ReadsInTurn part G E fun _ => (Run.lift result : Run σ α) state := by
  rw [Run.lift_apply]
  refine .ends ?_
  rintro error after ⟨⟩
  exact h

/-- Failing reads no parts. -/
theorem raise {σ α : Type} {error : EvalError} {state : σ} (h : E error) :
    ReadsInTurn part G E fun _ => (throw error : Run σ α) state := by
  refine .ends ?_
  rintro _ after ⟨⟩
  exact h

/-- Evaluating in a new frame reads parts in turn if it does so there. -/
theorem inFrame {α : Type} {eval : (Nat → Meaning) → Eval α} {environment : Environment}
    (h : ReadsInTurn part G E fun other => eval other ⟨environment, #[], 0⟩) :
    ReadsInTurn part G E fun other => Build.inFrame (eval other) environment :=
  .focus h

/-- Building inside a frame reads parts in turn if it does so on its bindings. -/
theorem onEnvironment {α : Type} {build : (Nat → Meaning) → Build α} {frame : Frame}
    (h : ReadsInTurn part G E fun other => build other frame.environment) :
    ReadsInTurn part G E fun other => Eval.onEnvironment (build other) frame :=
  .focus h

/-- A loop reads parts in turn if what runs in it does, one loop deeper. -/
theorem inLoop {α : Type} {eval : (Nat → Meaning) → Eval α} {frame : Frame}
    (h : ReadsInTurn part G E fun other =>
      eval other { frame with loopDepth := frame.loopDepth + 1 }) :
    ReadsInTurn part G E fun other => Eval.inLoop (eval other) frame :=
  .focus h

/-- After building has started, parts are read in turn from the bindings that are left. -/
theorem start {α : Type} {scope : Scope} {environment : Environment}
    {next : (Nat → Meaning) → Build α}
    (h : ReadsInTurn part G E fun other => next other (scope.enter environment)) :
    ReadsInTurn part G E fun other =>
      (Meaning.start scope >>= fun _ => next other) environment := by
  cases scope <;> exact h

/-- Putting out what is evaluated reads parts in turn if evaluating it does. -/
theorem emitting {value : (Nat → Meaning) → Eval Value} {frame : Frame}
    (h : ReadsInTurn part G E fun other => value other frame) :
    ReadsInTurn part G E fun other => Meaning.emitting (value other) frame :=
  h.bind fun _ _ _ => .ok

/-- The value of a statement reads parts in turn if executing it does. -/
theorem valueOf {statement : (Nat → Meaning) → Eval Flow} {frame : Frame}
    (h : ReadsInTurn part G E fun other => statement other frame) :
    ReadsInTurn part G E fun other => Meaning.valueOf (statement other) frame := by
  refine h.bind fun flow _ _ => ?_
  cases flow <;> exact .ok

variable (own : RaisesOwn V E)

include own

/-- Building what is evaluated reads parts in turn if evaluating it does. -/
theorem building {evaluate : (Nat → Meaning) → This → Eval Value} {scope : Scope} (this : This)
    {environment : Environment} (henvironment : environment.All V)
    (hkeeps : (evaluate part none).Keeps (Frame.All V) V)
    (h : ReadsInTurn part G E fun other => evaluate other none ⟨scope.enter environment, #[], 0⟩) :
    ReadsInTurn part G E fun other =>
      Meaning.building (evaluate other) scope this environment := by
  refine start (ReadsInTurn.bind (inFrame h) fun value after hvalue => lift (own.toJson value ?_))
  exact (Build.keeps_inFrame hkeeps _ (Scope.all_enter henvironment scope) _ _ hvalue).2

/-- An expression reads parts in turn if evaluating it does. -/
theorem ofExpression {evaluate : (Nat → Meaning) → This → Eval Value} {task : Task}
    (htask : task.All V J) (hkeeps : (evaluate part none).Keeps (Frame.All V) V)
    (h : ReadsInTurn part G E fun other => evaluate other task.mode.object task.frame) :
    ReadsInTurn part G E fun other => (Meaning.ofExpression (evaluate other)).perform task := by
  obtain ⟨mode, state⟩ := task
  cases mode with
  | evaluate this => exact h
  | execute this => exact emitting h
  | build scope this => exact building own this htask.state hkeeps h

/-- A statement reads parts in turn if executing it does. -/
theorem ofStatement {execute : (Nat → Meaning) → This → Eval Flow} {task : Task}
    (htask : task.All V J)
    (hkeeps : (Meaning.valueOf (execute part none)).Keeps (Frame.All V) V)
    (h : ReadsInTurn part G E fun other => execute other task.mode.object task.frame) :
    ReadsInTurn part G E fun other => (Meaning.ofStatement (execute other)).perform task := by
  obtain ⟨mode, state⟩ := task
  cases mode with
  | evaluate this => exact valueOf h
  | execute this => exact h
  | build scope this =>
    change ReadsInTurn part G E fun other =>
      Meaning.building (fun this => Meaning.valueOf (execute other this)) scope this state
    exact building own this htask.state hkeeps (valueOf h)

/-- Taking a value as a bound or a step of a loop reads no parts. -/
theorem integer {value : Value} (use : OperandUse) (huse : use ≠ .negation) {frame : Frame} :
    ReadsInTurn part G E fun _ => (Run.lift (value.asInteger use) : Eval Int64) frame := by
  refine lift (Meaning.admits_asInteger (fun type => own.other _ ?_ id) value)
  cases use <;> first | exact absurd rfl huse | exact id

end

section

variable (stable : Stable V J) (hkeeps : ∀ i < n, (part i).KeepsFrame V J)

include stable hkeeps

/-- Building members reads them in turn, each from the bindings that the ones before it leave. -/
theorem buildMembers {members : List (String × Node)} {place : Nat → Nat}
    (hplace : ∀ i < members.length, place i < n) {scope : Scope} {sofar : List (String × Json)}
    (hsofar : J (.object sofar)) {environment : Environment} (henvironment : environment.All V) :
    ReadsInTurn part (Within V J n 0) E fun other =>
      Meaning.buildMembers scope sofar
        (members.mapIdx fun i member => (member.1, other (place i))) environment := by
  induction members generalizing place sofar environment with
  | nil => exact .ok
  | cons member rest ih =>
    have hfirst := hplace 0 (Nat.zero_lt_succ _)
    have hthis := This.all_some hsofar
    simp only [List.mapIdx_cons]
    refine ReadsInTurn.bind (built hfirst hthis henvironment) fun value after hvalue => ?_
    obtain ⟨hafter, hresult⟩ :=
      (hkeeps _ hfirst).keeps.build scope _ hthis _ henvironment _ _ hvalue
    exact ih (fun i hi => hplace (i + 1) (Nat.succ_lt_succ hi))
      (stable.insertMember _ _ _ hresult hsofar) hafter

end

/-- Collecting items reads their parts in turn. -/
theorem collect {σ : Type} {I : σ → Prop} {step : Meaning → Run σ Json}
    (hstep : ∀ i < n, ∀ state, I state →
      ReadsInTurn part (Within V J n depth) E fun other => step (other i) state)
    (hkeeps : ∀ i < n, (step (part i)).Keeps I fun _ => True) {elements : List Node}
    {place : Nat → Nat} (hplace : ∀ i < elements.length, place i < n) {state : σ}
    (hstate : I state) :
    ReadsInTurn part (Within V J n depth) E fun other =>
      Meaning.collect step (elements.mapIdx fun i _ => other (place i)) state := by
  induction elements generalizing place state with
  | nil => exact .ok
  | cons element rest ih =>
    have hfirst := hplace 0 (Nat.zero_lt_succ _)
    simp only [List.mapIdx_cons]
    refine ReadsInTurn.bind (hstep _ hfirst state hstate) fun item after hitem => ?_
    have hafter := (hkeeps _ hfirst state hstate _ _ hitem).1
    refine ReadsInTurn.bind (ih (fun i hi => hplace (i + 1) (Nat.succ_lt_succ hi)) hafter) ?_
    exact fun _ _ _ => .ok

section

variable (stable : Stable V J) (own : RaisesOwn V E)
  (hkeeps : ∀ i < n, (part i).KeepsFrame V J)

include hkeeps

/-- Statements in a row are read in turn, up to the first one that leaves. -/
theorem sequence {this : This} (hthis : This.All J this) {statements : List Node}
    {place : Nat → Nat} (hplace : ∀ i < statements.length, place i < n) {frame : Frame}
    (hframe : frame.AllAt V depth) :
    ReadsInTurn part (Within V J n depth) E fun other =>
      Meaning.sequence this (statements.mapIdx fun i _ => other (place i)) frame := by
  induction statements generalizing place frame with
  | nil => exact .ok
  | cons statement rest ih =>
    have hfirst := hplace 0 (Nat.zero_lt_succ _)
    simp only [List.mapIdx_cons]
    refine ReadsInTurn.bind (executed hfirst hthis hframe) fun flow after hflow => ?_
    obtain ⟨hafter, -⟩ := (hkeeps _ hfirst).execute hthis depth _ hframe _ _ hflow
    cases flow with
    | proceed => exact ih (fun i hi => hplace (i + 1) (Nat.succ_lt_succ hi)) hafter
    | _ => exact .ok

/-- A callable block starts outside of all loops, so its statements leave none. -/
theorem callBlock {this : This} (hthis : This.All J this) {statements : List Node}
    (hplace : ∀ i < statements.length, i < n) {environment : Environment}
    (henvironment : environment.All V) :
    ReadsInTurn part (Within V J n 0) E fun other =>
      Meaning.callBlock (statements.mapIdx fun i _ => other i) this environment := by
  have hframe : Frame.AllAt V 0 ⟨environment, #[], 0⟩ := ⟨⟨henvironment, nofun⟩, rfl⟩
  unfold Meaning.callBlock
  refine inFrame (ReadsInTurn.bind (sequence hkeeps hthis hplace hframe) fun flow after hflow => ?_)
  have hpossible := Meaning.sequence_runsBehind
    (fun i hi => (hkeeps i (hplace i hi)).runsBehind) this #[] 0
  cases flow with
  | proceed | return_ value => exact .ok
  | break_ | continue_ => exact absurd (hpossible.keeps _ rfl _ _ hflow).2 (Nat.lt_irrefl 0)

include stable in
/-- An object reads its members in turn. -/
theorem object {task : Task} (htask : task.All V J) {members : List (String × Node)}
    (hplace : ∀ i < members.length, i < n) :
    ReadsInTurn part (Within V J n 0) E fun other =>
      (Meaning.object (members.mapIdx fun i member => (member.1, other i))).perform task := by
  have hmembers (scope : Scope) : ReadsInTurn part (Within V J n 0) E fun other =>
      Meaning.buildMembers scope [] (members.mapIdx fun i member => (member.1, other i))
        task.environment :=
    buildMembers stable hkeeps hplace stable.object_nil htask.environment
  obtain ⟨mode, state⟩ := task
  have hvalue {frame : Frame} (hframe : ReadsInTurn part (Within V J n 0) E fun other =>
      Meaning.buildMembers .nested [] (members.mapIdx fun i member => (member.1, other i))
        frame.environment) : ReadsInTurn part (Within V J n 0) E fun other =>
      Meaning.objectValue (members.mapIdx fun i member => (member.1, other i)) frame :=
    ReadsInTurn.bind (onEnvironment hframe) fun _ _ _ => .ok
  cases mode with
  | evaluate this => exact hvalue (hmembers .nested)
  | execute this => exact emitting (hvalue (hmembers .nested))
  | build scope this => exact hmembers scope

include own in
/-- An array reads its elements in turn. -/
theorem array {task : Task} (htask : task.All V J) {elements : List Node}
    (hplace : ∀ i < elements.length, i < n) :
    ReadsInTurn part (Within V J n task.frame.loopDepth) E fun other =>
      (Meaning.array (elements.mapIdx fun i _ => other i)).perform task := by
  have hvalue {this : This} (hthis : This.All J this) {frame : Frame} (hframe : frame.All V) :
      ReadsInTurn part (Within V J n frame.loopDepth) E fun other =>
        Meaning.arrayValue (elements.mapIdx fun i _ => other i) this frame := by
    refine ReadsInTurn.bind (collect (I := Frame.AllAt V frame.loopDepth) ?_ ?_ hplace
      ⟨hframe, rfl⟩) fun _ _ _ => .ok
    · intro i hi frame hframe
      refine ReadsInTurn.bind (evaluated hi hthis hframe) fun value after hvalue => lift ?_
      exact own.toJson value ((hkeeps i hi).evaluate hthis _ _ hframe _ _ hvalue).2
    · exact fun i hi => .bind ((hkeeps i hi).evaluate hthis _) fun value _ => .lift (ifOk_true _)
  obtain ⟨mode, state⟩ := task
  cases mode with
  | evaluate this => exact hvalue htask.this htask.state
  | execute this => exact emitting (hvalue htask.this htask.state)
  | build scope this =>
    refine ReadsInTurn.bind (collect (I := Environment.All V) ?_ ?_ hplace htask.state)
      fun _ _ _ => .ok
    · exact fun i hi environment henvironment => built hi This.all_none henvironment
    · exact fun i hi =>
        ((hkeeps i hi).keeps.build scope none This.all_none).mono fun _ _ => trivial

include stable own in
/-- A block reads its statements in turn, at the depth of loops within it. -/
theorem block {task : Task} (htask : task.All V J) {statements : List Node}
    (hplace : ∀ i < statements.length, i < n) :
    ReadsInTurn part (Within V J n ((Node.block statements).depthWithin task)) E fun other =>
      (Meaning.block (statements.mapIdx fun i _ => other i)).perform task := by
  obtain ⟨mode, state⟩ := task
  cases mode with
  | evaluate this => exact onEnvironment (callBlock hkeeps htask.this hplace htask.environment)
  | execute this => exact sequence hkeeps htask.this hplace ⟨htask.state, rfl⟩
  | build scope this =>
    have hentered := Scope.all_enter htask.environment scope
    refine start (ReadsInTurn.bind (callBlock hkeeps htask.this hplace hentered)
      fun value after hcall => lift (own.toJson value ?_))
    refine (Meaning.keeps_callBlock stable ?_ this htask.this _ hentered _ _ hcall).2
    intro statement hstatement
    obtain ⟨i, hi, rfl⟩ := List.mem_mapIdx.mp hstatement
    exact (hkeeps i (hplace i hi)).keeps

/-- A choice reads its conditions in turn, and the body of the first one that is true. -/
theorem choose {this : This} (hthis : This.All J this) {cases : List (Node × Node)}
    {condition body : Nat → Nat} (hcondition : ∀ i < cases.length, condition i < n)
    (hbody : ∀ i < cases.length, body i < n) {otherwise : Option Node} {last : Nat}
    (hlast : otherwise.isSome → last < n) {frame : Frame} (hframe : frame.AllAt V depth) :
    ReadsInTurn part (Within V J n depth) E fun other =>
      Meaning.choose this (otherwise.map fun _ => other last)
        (cases.mapIdx fun i _ => (other (condition i), other (body i))) frame := by
  induction cases generalizing condition body frame with
  | nil =>
    cases otherwise with
    | none => exact .ok
    | some node => exact executed (hlast rfl) hthis hframe
  | cons case rest ih =>
    have hfirst := hcondition 0 (Nat.zero_lt_succ _)
    simp only [List.mapIdx_cons]
    refine ReadsInTurn.bind (evaluated hfirst hthis hframe) fun value after hvalue => ?_
    have hafter := ((hkeeps _ hfirst).evaluate hthis depth _ hframe _ _ hvalue).1
    cases value.isTruthy with
    | true => exact executed (hbody 0 (Nat.zero_lt_succ _)) hthis hafter
    | false =>
      exact ih (fun i hi => hcondition (i + 1) (Nat.succ_lt_succ hi))
        (fun i hi => hbody (i + 1) (Nat.succ_lt_succ hi)) hafter

/-- A loop `while` reads its condition and its body in turn, round after round. -/
theorem whileLoop {this : This} (hthis : This.All J this) {i j : Nat} (hi : i < n) (hj : j < n)
    (rounds : Nat) {frame : Frame} (hframe : frame.AllAt V depth) :
    ReadsInTurn part (Within V J n depth) E fun other =>
      Meaning.whileLoop ((other i).evaluate this) ((other j).execute this) rounds frame := by
  induction rounds generalizing frame with
  | zero => exact .ends nofun
  | succ rounds ih =>
    refine ReadsInTurn.bind (evaluated hi hthis hframe) fun value middle hvalue => ?_
    have hmiddle := ((hkeeps i hi).evaluate hthis depth _ hframe _ _ hvalue).1
    cases value.isTruthy with
    | false => exact .ok
    | true =>
      refine ReadsInTurn.bind (executed hj hthis hmiddle) fun flow after hflow => ?_
      have hafter := ((hkeeps j hj).execute hthis depth _ hmiddle _ _ hflow).1
      cases flow with
      | proceed | continue_ => exact ih hafter
      | break_ | return_ => exact .ok

include stable in
/-- A loop that counts reads its body in turn, round after round. -/
theorem countLoop {this : This} (hthis : This.All J this) {i : Nat} (hi : i < n) (name : String)
    (stop step current : Int64) {frame : Frame} (hframe : frame.AllAt V depth) :
    ReadsInTurn part (Within V J n depth) E fun other =>
      Meaning.countLoop name ((other i).execute this) stop step current frame := by
  induction current using Meaning.countLoop.induct stop step generalizing frame with
  | case2 current hrange =>
    have heq (body : Eval Flow) :
        Meaning.countLoop name body stop step current = pure .proceed := by
      rw [Meaning.countLoop, dif_neg hrange]
    simp only [heq]
    exact .ok
  | case1 current hrange ih =>
    have hround : (frame.define name (.integer current)).AllAt V depth :=
      ⟨⟨hframe.all.environment.define (stable.integer current) name, hframe.all.output⟩,
        hframe.loopDepth⟩
    simp only [Meaning.countLoop_apply hrange]
    refine ReadsInTurn.bind (executed hi hthis hround) fun flow after hflow => ?_
    have hafter := ((hkeeps i hi).execute hthis depth _ hround _ _ hflow).1
    cases flow with
    | proceed | continue_ =>
      dsimp only
      cases hnext : integer? (current.toInt + step.toInt) with
      | none => exact .ok
      | some next => exact ih next hnext hafter
    | break_ | return_ => exact .ok

include stable own in
/-- The places of the start, the end, the step and the body are given. -/
theorem for_ (i j k l : Nat) (step : Option Node) (hi : i < n) (hj : j < n)
    (hk : step.isSome → k < n) (hl : l < n) {name : String} {task : Task} (htask : task.All V J) :
    ReadsInTurn part (Within V J n (task.frame.loopDepth + 1)) E fun other =>
      (Meaning.for_ name (other i) (other j) (step.map fun _ => other k) (other l)).perform
        task := by
  have hgiven : ∀ given ∈ step.map fun _ => part k, given.KeepsFrame V J := by
    intro given hgiven
    obtain ⟨node, rfl, rfl⟩ := Option.map_eq_some_iff.mp hgiven
    exact hkeeps k (hk rfl)
  have hwhole := Meaning.keeps_for stable name (hkeeps i hi).keeps (hkeeps j hj).keeps
    (fun given h => (hgiven given h).keeps) (hkeeps l hl).keeps
  refine ofStatement own htask (hwhole.evaluate none This.all_none) ?_
  have hthis := htask.object
  have hstart : Frame.AllAt V (task.frame.loopDepth + 1)
      { task.frame with loopDepth := task.frame.loopDepth + 1 } :=
    ⟨⟨htask.frame.environment, htask.frame.output⟩, rfl⟩
  refine inLoop (ReadsInTurn.bind (evaluated hi hthis hstart) fun first _ hfirst => ?_)
  have hfirst := ((hkeeps i hi).evaluate hthis _ _ hstart _ _ hfirst).1
  refine ReadsInTurn.bind (integer own .loopBound nofun) fun first _ hinteger => ?_
  obtain rfl := Run.eq_of_lift hinteger
  refine ReadsInTurn.bind (evaluated hj hthis hfirst) fun last _ hlast => ?_
  have hlast := ((hkeeps j hj).evaluate hthis _ _ hfirst _ _ hlast).1
  refine ReadsInTurn.bind (integer own .loopBound nofun) fun last _ hinteger => ?_
  obtain rfl := Run.eq_of_lift hinteger
  refine ReadsInTurn.bind ?_ fun stride _ hstride => ?_
  · cases step with
    | none => exact .ok
    | some node =>
      exact ReadsInTurn.bind (evaluated (hk rfl) hthis hlast) fun _ _ _ =>
        integer own .loopStep nofun
  · have hstep := Meaning.keeps_stepOf fun given h =>
      (hgiven given h).evaluate hthis (task.frame.loopDepth + 1)
    have hstride := (hstep _ hlast _ _ hstride).1
    split
    · exact raise (own.other .zeroStep id id)
    · exact countLoop stable hkeeps hthis hl name last stride first hstride

end

end ReadsInTurn

namespace Node

/-- The values that a binary node has found for its operands in a reading. -/
inductive Operands (rounds : Nat) (task : Task) : Node → Operator → Value → Value → Prop
  | intro {operator : Operator} {left right : Node} {l r : Value} {middle after : Frame} :
      (left.meaning rounds).evaluate task.mode.object task.frame = some (.ok l, middle) →
      (right.meaning rounds).evaluate task.mode.object middle = some (.ok r, after) →
      Operands rounds task (binary operator left right) operator l r

/-- An error that a reading of a node passes on from a part that it calls. -/
def PassesOn (rounds : Nat) (node : Node) (task : Task) (error : EvalError) : Prop :=
  ∃ i part called, node.parts[i]? = some part ∧ node.Calls rounds task i called ∧
    (part.meaning rounds).FailsWith called error

variable {V : Value → Prop} {J : Json → Prop} {E : EvalError → Prop} {node : Node} {rounds : Nat}
  {task : Task}

/-- The parts of a node keep kinds and depths if its floats are of the kind. -/
theorem keepsFrame_meaningAt (stable : Stable V J) (rounds : Nat)
    (hfloat : ∀ x, (float x).Occurs node → V (.float x)) :
    ∀ i < node.parts.length, (meaningAt rounds node.parts i).KeepsFrame V J := by
  intro i hi
  rw [meaningAt_of_getElem? (List.getElem?_eq_getElem hi)]
  refine ⟨keeps_meaning stable rounds fun x hx => ?_, runsBehind rounds _⟩
  exact hfloat x (.inside (List.getElem_mem hi) hx)

/-- The operands of a node that is read in a good state have values with the property. -/
theorem Operands.all (stable : Stable V J) (hfloat : ∀ x, (float x).Occurs node → V (.float x))
    (htask : task.All V J) {operator : Operator} {l r : Value}
    (h : node.Operands rounds task operator l r) : V l ∧ V r := by
  have hkeeps := keepsFrame_meaningAt stable rounds hfloat
  cases h with
  | intro hl hr =>
    obtain ⟨hmiddle, hleft⟩ :=
      (hkeeps 0 Nat.zero_lt_two).evaluate htask.object _ _ ⟨htask.frame, rfl⟩ _ _ hl
    exact ⟨hleft, ((hkeeps 1 Nat.one_lt_two).evaluate htask.object _ _ hmiddle _ _ hr).2⟩

/-- An error of the operator is the error of the node. -/
theorem Operands.failsWith {operator : Operator} {l r : Value} {error : EvalError}
    (h : node.Operands rounds task operator l r)
    (happly : Value.apply operator l r = .error error) :
    (node.meaning rounds).FailsWith task error := by
  cases h with
  | @intro _ left right _ _ middle after hl hr =>
    refine Meaning.failsWith_ofExpression ⟨after, ?_⟩
    rw [Run.bind_of_ok hl, Run.bind_of_ok hr, Run.lift_apply, happly]

/-- In a good state a node reads its parts in turn, in good states. -/
theorem readsInTurn (stable : Stable V J) (own : RaisesOwn V E)
    (hfloat : ∀ x, (float x).Occurs node → V (.float x)) (htask : task.All V J)
    (hoperator : ∀ operator l r, node.Operands rounds task operator l r →
      Admits E (fun _ => True) (Value.apply operator l r))
    (hleave : ∀ error, node.LeavesWith error → task.frame.loopDepth = 0 → E error) :
    ReadsInTurn (meaningAt rounds node.parts)
      (ReadsInTurn.Within V J node.parts.length (node.depthWithin task)) E
      fun other => (node.assemble rounds other).perform task := by
  have hkeeps := keepsFrame_meaningAt stable rounds hfloat
  have hself : (node.assemble rounds (meaningAt rounds node.parts)).Keeps V J := by
    rw [← meaning_eq_assemble]
    exact keeps_meaning stable rounds hfloat
  have hnone := hself.evaluate none This.all_none
  have hframe : task.frame.AllAt V task.frame.loopDepth := ⟨htask.frame, rfl⟩
  cases node with
  | object members => exact .object stable hkeeps htask (by simp [parts])
  | array elements => exact .array own hkeeps htask (by simp [parts])
  | block statements => exact ReadsInTurn.block stable own hkeeps htask (by simp [parts])
  | string | integer | boolean | null =>
    obtain ⟨mode, state⟩ := task
    cases mode <;> exact .ok
  | float value => exact .ofExpression own htask hnone (.ok)
  | lookup name =>
    refine .ofExpression own htask hnone (ReadsInTurn.bind (.ok) fun frame after _ => ?_)
    cases frame.environment.lookup? name with
    | some value => exact .ok
    | none => exact .raise (own.other _ id id)
  | this path =>
    refine .ofExpression own htask hnone ?_
    unfold Meaning.resolve
    cases task.mode.object with
    | none => exact .raise (own.other _ id id)
    | some members =>
      dsimp only
      cases Json.walk? path (.object members) with
      | some json => exact .ok
      | none => exact .raise (own.other _ id id)
  | assign name value =>
    refine .ofStatement own htask hnone ?_
    exact ReadsInTurn.bind (.evaluated Nat.zero_lt_one htask.object hframe) fun _ _ _ => .ok
  | return_ value =>
    refine .ofStatement own htask hnone ?_
    exact ReadsInTurn.bind (.evaluated Nat.zero_lt_one htask.object hframe) fun _ _ _ => .ok
  | negate operand =>
    refine .ofExpression own htask hnone ?_
    refine ReadsInTurn.bind (.evaluated Nat.zero_lt_one htask.object hframe)
      fun value after hvalue => .lift ?_
    exact own.neg value
      ((hkeeps 0 Nat.zero_lt_one).evaluate htask.object _ _ hframe _ _ hvalue).2
  | binary operator left right =>
    refine .ofExpression own htask hnone ?_
    refine ReadsInTurn.bind (.evaluated Nat.zero_lt_two htask.object hframe) fun l middle hl => ?_
    have hmiddle := ((hkeeps 0 Nat.zero_lt_two).evaluate htask.object _ _ hframe _ _ hl).1
    refine ReadsInTurn.bind (.evaluated Nat.one_lt_two htask.object hmiddle)
      fun r after hr => .lift ?_
    exact hoperator operator l r (.intro hl hr)
  | break_ | continue_ =>
    refine .ofStatement own htask hnone (ReadsInTurn.bind (.ok) fun frame after hget => ?_)
    cases hget
    split
    · exact .ok
    · rename_i houtside
      exact .raise (hleave _ rfl (Nat.eq_zero_of_not_pos houtside))
  | cond cases otherwise =>
    have hlength := length_parts_cond cases otherwise
    refine .ofStatement own htask hnone (.choose hkeeps htask.object ?_ ?_ ?_ hframe)
    · exact fun i hi => by omega
    · exact fun i hi => by omega
    · intro hsome
      obtain ⟨body, rfl⟩ := Option.isSome_iff_exists.mp hsome
      simp [hlength]
  | while_ condition body =>
    refine .ofStatement own htask hnone (.inLoop (.whileLoop hkeeps htask.object Nat.zero_lt_two
      Nat.one_lt_two rounds ?_))
    exact ⟨⟨htask.frame.environment, htask.frame.output⟩, rfl⟩
  | for_ name start stop step body =>
    cases step with
    | none =>
      exact .for_ stable own hkeeps 0 1 2 2 none (by simp [parts]) (by simp [parts]) (by simp)
        (by simp [parts]) htask
    | some step =>
      exact .for_ stable own hkeeps 0 1 2 3 (some step) (by simp [parts]) (by simp [parts])
        (fun _ => by simp [parts]) (by simp [parts]) htask

/-- In a good state a node calls its parts in good states, with as many loops around as it has
around its parts. -/
theorem Calls.within (stable : Stable V J)
    (hfloat : ∀ x, (float x).Occurs node → V (.float x)) (htask : task.All V J) {i : Nat}
    {called : Task} (h : node.Calls rounds task i called) :
    ReadsInTurn.Within V J node.parts.length (node.depthWithin task) i called := by
  have own : RaisesOwn V fun _ => True :=
    ⟨fun _ _ _ => trivial, fun _ _ => admits_true _, fun _ _ => admits_true _⟩
  exact (readsInTurn stable own hfloat htask (fun _ _ _ _ => admits_true _)
    fun _ _ _ => trivial).of_called h

/-- The error of a node in a good state is one that its own construct raises, or it is passed on
from a part. -/
theorem raises_or_passesOn (stable : Stable V J) (own : RaisesOwn V E)
    (hfloat : ∀ x, (float x).Occurs node → V (.float x)) (htask : task.All V J)
    (hoperator : ∀ operator l r, node.Operands rounds task operator l r →
      Admits E (fun _ => True) (Value.apply operator l r))
    (hleave : ∀ error, node.LeavesWith error → task.frame.loopDepth = 0 → E error)
    {error : EvalError} (hfails : (node.meaning rounds).FailsWith task error) :
    E error ∨ node.PassesOn rounds task error := by
  obtain ⟨after, hafter⟩ := hfails
  rw [meaning_eq_assemble] at hafter
  have hturn := readsInTurn stable own hfloat htask hoperator hleave
  refine (hturn.error_cases hafter).imp_right ?_
  rintro ⟨i, called, hwithin, hpart, hcalls⟩
  have hi := List.getElem?_eq_getElem hwithin.lt
  rw [meaningAt_of_getElem? hi] at hpart
  exact ⟨i, _, called, hi, hcalls, hpart⟩

/-- Whatever is reached occurs in the tree. -/
theorem Reached.occurs {tree : Node} {start : Task} {place : List Nat}
    (h : node.Reached rounds task tree start place) : node.Occurs tree := by
  induction h with
  | here => exact .here
  | inside hpart _ _ ih => exact .inside (List.mem_of_getElem? hpart) ih

/-- From a good state a tree reaches its nodes in good states. -/
theorem Reached.all (stable : Stable V J) {tree : Node} {start : Task} {place : List Nat}
    (h : node.Reached rounds task tree start place)
    (hfloat : ∀ x, (float x).Occurs tree → V (.float x)) (hstart : start.All V J) :
    task.All V J := by
  induction h with
  | here => exact hstart
  | inside hpart hcalls _ ih =>
    have hmem := List.mem_of_getElem? hpart
    exact ih (fun x hx => hfloat x (.inside hmem hx)) (hcalls.within stable hfloat hstart).all

/-- An error of a tree comes from a node that is reached, where each node raises it in its own way
or passes it on; what is known of the tree has to pass on to the parts that are called. -/
theorem exists_reached_of_failsWith {error : EvalError} {C : Node → Task → Prop}
    {Raises : Node → Task → Prop}
    (hpart : ∀ node task i part called, C node task → node.parts[i]? = some part →
      node.Calls rounds task i called → C part called)
    (hraises : ∀ node task, C node task → (node.meaning rounds).FailsWith task error →
      Raises node task ∨ node.PassesOn rounds task error)
    {tree : Node} {start : Task} (htree : C tree start)
    (hfails : (tree.meaning rounds).FailsWith start error) :
    ∃ node task place, Reached rounds node task tree start place ∧ Raises node task := by
  induction tree using induction_parts generalizing start with
  | step tree ih =>
    rcases hraises tree start htree hfails with hown | ⟨i, part, called, hget, hcalls, hfails⟩
    · exact ⟨tree, start, [], .here, hown⟩
    · obtain ⟨node, task, place, hreached, hown⟩ :=
        ih part (List.mem_of_getElem? hget) (hpart _ _ _ _ _ htree hget hcalls) hfails
      exact ⟨node, task, i :: place, .inside hget hcalls hreached, hown⟩

end Node

end JsonTemplate
