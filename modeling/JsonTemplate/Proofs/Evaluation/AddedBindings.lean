import JsonTemplate.Proofs.Evaluation.CallsInTurn

/-!
# Bindings are only added

Inside a block no binding is ever taken away: whatever is evaluated, executed, called or built there
leaves the bindings that it found, with none or more added to them, also when it fails. Only the
building of a part of the document at its root forgets the bindings, and nothing that is read inside
a block is built in this way.

So the bindings grow along all readings that a block reaches, up to those that it leaves itself. A
name that is not found is not bound when the failing reading ends, hence at no time before: once a
name is bound in a block, none of its readings fails for want of it.
-/

namespace JsonTemplate

namespace Environment

/-- The bindings with none or more added to them. -/
def GrowsTo (before after : Environment) : Prop :=
  ∃ added, after.bindings = added ++ before.bindings

/-- A name is bound. -/
def Binds (environment : Environment) (name : String) : Prop := environment.lookup? name ≠ none

namespace GrowsTo

variable {before middle after : Environment}

/-- Bindings grow to themselves. -/
protected theorem refl (environment : Environment) : environment.GrowsTo environment := ⟨[], rfl⟩

/-- What grows twice has grown. -/
protected theorem trans (h : before.GrowsTo middle) (hafter : middle.GrowsTo after) :
    before.GrowsTo after := by
  obtain ⟨first, hfirst⟩ := h
  obtain ⟨second, hsecond⟩ := hafter
  exact ⟨second ++ first, by rw [hsecond, hfirst, List.append_assoc]⟩

/-- With one more binding, the bindings have grown. -/
theorem define (environment : Environment) (name : String) (value : Value) :
    environment.GrowsTo (environment.define name value) := ⟨[(name, value)], rfl⟩

/-- A name that is bound stays bound. -/
theorem binds (h : before.GrowsTo after) {name : String} (hname : before.Binds name) :
    after.Binds name := by
  obtain ⟨added, hadded⟩ := h
  unfold Binds lookup? at hname ⊢
  rw [hadded, List.lookup_append]
  exact fun hnone => hname (Option.or_eq_none_iff.mp hnone).2

end GrowsTo

end Environment

/-- What is left of bindings at an end: they have grown, and a name that was not found is not
bound. -/
structure Adds {α : Type} (before : Environment) (result : Except EvalError α)
    (after : Environment) : Prop where
  grows : before.GrowsTo after
  unbound : ∀ name, result = .error (.unboundVariable name) → ¬after.Binds name

section

variable {α : Type} {before middle after : Environment} {result : Except EvalError α}

/-- What only adds bindings to grown ones only adds bindings. -/
theorem Adds.of_grows (h : before.GrowsTo middle) (hafter : Adds middle result after) :
    Adds before result after :=
  ⟨h.trans hafter.grows, hafter.unbound⟩

/-- Bindings that stay as they are have grown, and a name that was not found is not bound. -/
theorem adds_self {environment : Environment}
    (h : ∀ name, result = .error (.unboundVariable name) → ¬environment.Binds name) :
    Adds environment result environment :=
  ⟨.refl environment, h⟩

end

/-- A computation that reads parts in turn, from the given bindings on. Each part is read inside the
block and finds the bindings that the readings before have left, with none or more added to them,
and so does the end. -/
inductive AddsInTurn (part : Nat → Meaning) {σ α : Type} (view : σ → Environment) :
    Environment → OpenOutcome σ α → Prop
  | ends {before : Environment} {outcome : Option (Except EvalError α × σ)} :
      (∀ result after, outcome = some (result, after) → Adds before result (view after)) →
      AddsInTurn part view before fun _ => outcome
  | reads {before : Environment} {i : Nat} {task : Task}
      {next : task.mode.Result → task.mode.State → OpenOutcome σ α}
      {leave : task.mode.State → σ} :
      task.mode.scope = .nested → before.GrowsTo task.environment →
      (∀ after, view (leave after) = task.mode.environment after) →
      (∀ result after, (part i).perform task = some (.ok result, after) →
        AddsInTurn part view (task.mode.environment after) (next result after)) →
      AddsInTurn part view before ((OpenOutcome.reading i task).andThen next leave)

/-- A meaning whose readings inside a block only add bindings. -/
def Meaning.AddsBindings (meaning : Meaning) : Prop :=
  ∀ task result after, task.mode.scope = .nested →
    meaning.perform task = some (result, after) →
      Adds task.environment result (task.mode.environment after)

namespace AddsInTurn

open OpenOutcome

variable {part : Nat → Meaning} {σ τ α β : Type} {view : σ → Environment}
  {other : τ → Environment} {before : Environment}

/-- What is read in turn from grown bindings on is read in turn from the bindings before as well. -/
theorem of_grows {outcome : OpenOutcome σ α} {middle : Environment}
    (hgrows : before.GrowsTo middle) (h : AddsInTurn part view middle outcome) :
    AddsInTurn part view before outcome := by
  cases h with
  | ends hends => exact .ends fun result after hafter => (hends result after hafter).of_grows hgrows
  | reads hscope htask hleave hnext => exact .reads hscope (hgrows.trans htask) hleave hnext

/-- Two computations in a row read their parts in turn, the second one from where the first one
ends. -/
protected theorem andThen {outcome : OpenOutcome σ α} {next : α → σ → OpenOutcome τ β}
    {leave : σ → τ} (h : AddsInTurn part view before outcome)
    (hleave : ∀ after, other (leave after) = view after)
    (hnext : ∀ result after, outcome part = some (.ok result, after) →
      AddsInTurn part other (view after) (next result after)) :
    AddsInTurn part other before (outcome.andThen next leave) := by
  induction h with
  | @ends before outcome hends =>
    cases outcome with
    | none => exact .ends nofun
    | some outcome =>
      obtain ⟨result, after⟩ := outcome
      have hadds := hends result after rfl
      cases result with
      | ok value => exact (hnext value after rfl).of_grows hadds.grows
      | error error =>
        refine .ends ?_
        rintro _ _ ⟨⟩
        refine ⟨?_, ?_⟩
        · exact (hleave after).symm ▸ hadds.grows
        · rintro name ⟨⟩
          exact (hleave after).symm ▸ hadds.unbound name rfl
  | reads hscope htask hview _ ih =>
    rw [andThen_assoc]
    refine .reads hscope htask (fun after => (hleave _).trans (hview after)) ?_
    intro result after hresult
    refine ih result after hresult fun last state hlast => hnext last state ?_
    exact (andThen_of_ok hresult).trans hlast

/-- One reading inside the block is a computation that reads its part in turn. -/
protected theorem reading {i : Nat} {task : Task} (h : task.mode.scope = .nested) :
    AddsInTurn part task.mode.environment task.environment (OpenOutcome.reading i task) := by
  rw [← andThen_ok (OpenOutcome.reading i task)]
  refine .reads h (.refl _) (fun _ => rfl) fun result after _ => .ends ?_
  rintro _ _ ⟨⟩
  exact adds_self nofun

/-- A computation only adds bindings if the parts that it reads do. -/
theorem adds {outcome : OpenOutcome σ α} (h : AddsInTurn part view before outcome)
    (hparts : ∀ i, (part i).AddsBindings) {result : Except EvalError α} {last : σ}
    (hlast : outcome part = some (result, last)) : Adds before result (view last) := by
  induction h with
  | ends hends => exact hends result last hlast
  | @reads before i task next leave hscope htask hview _ ih =>
    cases hperform : (part i).perform task with
    | none => cases (andThen_of_none hperform).symm.trans hlast
    | some outcome =>
      obtain ⟨first, after⟩ := outcome
      have hadds := (hparts i task first after hscope hperform).of_grows htask
      cases first with
      | ok value =>
        rw [andThen_of_ok hperform] at hlast
        exact (ih value after hperform hlast).of_grows hadds.grows
      | error error =>
        cases (andThen_of_error hperform).symm.trans hlast
        rw [← hview after] at hadds
        refine ⟨hadds.grows, ?_⟩
        rintro name ⟨⟩
        exact hadds.unbound name rfl

/-- A part that a computation calls is read inside the block. It finds the bindings that the
computation found, with none or more added, and the computation leaves those that the part has left,
with none or more added. -/
theorem of_called {outcome : OpenOutcome σ α} (h : AddsInTurn part view before outcome)
    (hparts : ∀ i, (part i).AddsBindings) {i : Nat} {called : Task}
    (hcalled : ∀ error faulty, (part i).Fault faulty called error →
      ∃ after, outcome (Function.update part i faulty) = some (.error error, after)) :
    called.mode.scope = .nested ∧ before.GrowsTo called.environment ∧
      ∀ result last, outcome part = some (result, last) →
        ∃ first after, (part i).perform called = some (first, after) ∧
          (called.mode.environment after).GrowsTo (view last) := by
  induction h with
  | ends => exact absurd hcalled (ReadsInTurn.not_error_of_fault fun _ _ _ => rfl)
  | @reads before j task next leave hscope htask hview hnext ih =>
    by_cases hsame : j = i ∧ task = called
    · obtain ⟨rfl, rfl⟩ := hsame
      refine ⟨hscope, htask, fun result last hlast => ?_⟩
      cases hperform : (part j).perform task with
      | none => cases (andThen_of_none hperform).symm.trans hlast
      | some outcome =>
        obtain ⟨first, after⟩ := outcome
        refine ⟨first, after, rfl, ?_⟩
        cases first with
        | ok value =>
          rw [andThen_of_ok hperform] at hlast
          exact ((hnext value after hperform).adds hparts hlast).grows
        | error error =>
          cases (andThen_of_error hperform).symm.trans hlast
          rw [hview]
          exact .refl _
    cases hperform : (part j).perform task with
    | none =>
      exact absurd hcalled (ReadsInTurn.not_error_of_fault fun _ _ hfault =>
        andThen_of_none ((ReadsInTurn.reading_update_of_ne hfault hsame).trans hperform))
    | some outcome =>
      obtain ⟨first, after⟩ := outcome
      cases first with
      | error error =>
        exact absurd hcalled (ReadsInTurn.not_error_of_fault fun _ _ hfault =>
          andThen_of_error ((ReadsInTurn.reading_update_of_ne hfault hsame).trans hperform))
      | ok value =>
        obtain ⟨hnested, hgrows, hends⟩ := ih value after hperform fun error faulty hfault => by
          obtain ⟨last, hlast⟩ := hcalled error faulty hfault
          rw [andThen_of_ok ((ReadsInTurn.reading_update_of_ne hfault hsame).trans hperform)]
            at hlast
          exact ⟨last, hlast⟩
        have hadds := hparts j task _ after hscope hperform
        refine ⟨hnested, (htask.trans hadds.grows).trans hgrows, fun result last hlast => ?_⟩
        exact hends result last ((andThen_of_ok hperform).symm.trans hlast)

end AddsInTurn

/-- The lookup of a name that is bound gives its value. -/
theorem Eval.lookup_of_some {name : String} {frame : Frame} {value : Value}
    (h : frame.environment.lookup? name = some value) :
    Eval.lookup name frame = some (.ok value, frame) := by
  rw [Eval.lookup, Run.bind_of_ok (Run.get_apply frame), h]
  rfl

/-- The lookup of a name that is not bound fails. -/
theorem Eval.lookup_of_none {name : String} {frame : Frame}
    (h : frame.environment.lookup? name = none) :
    Eval.lookup name frame = some (.error (.unboundVariable name), frame) := by
  rw [Eval.lookup, Run.bind_of_ok (Run.get_apply frame), h]
  rfl

/-- From every state a computation only adds bindings, as far as the parts do that it reads. -/
def RunsAdding {σ α : Type} (part : Nat → Meaning) (view : σ → Environment)
    (run : (Nat → Meaning) → Run σ α) : Prop :=
  ∀ state, AddsInTurn part view (view state) fun other => run other state

namespace RunsAdding

variable {part : Nat → Meaning} {σ τ α β : Type} {view : σ → Environment}

/-- What only gives a result adds no binding. -/
protected theorem pure (result : α) : RunsAdding part view fun _ => Pure.pure result := by
  intro state
  refine .ends ?_
  rintro _ _ ⟨⟩
  exact adds_self nofun

/-- What fails for another reason than a name that was not found adds no binding. -/
protected theorem throw {error : EvalError} (h : ∀ name, error ≠ .unboundVariable name) :
    RunsAdding part view fun _ => (throw error : Run σ α) := by
  intro state
  refine .ends ?_
  rintro _ _ ⟨⟩
  exact adds_self fun name herror => absurd (Except.error.inj herror) (h name)

/-- What does not end adds no binding. -/
protected theorem unfinished : RunsAdding part view fun _ => (Run.unfinished : Run σ α) :=
  fun _ => .ends nofun

/-- A change of the state only adds bindings if the bindings in it grow. -/
protected theorem modify {f : σ → σ} (h : ∀ state, (view state).GrowsTo (view (f state))) :
    RunsAdding part view fun _ => (modify f : Run σ PUnit) := by
  intro state
  refine .ends ?_
  rintro _ _ ⟨⟩
  exact ⟨h state, nofun⟩

/-- A result that is put in adds no binding, if it is not the error of a name. -/
protected theorem lift {result : Except EvalError α}
    (h : ∀ name, result ≠ .error (.unboundVariable name)) :
    RunsAdding part view fun _ => (Run.lift result : Run σ α) := by
  cases result with
  | ok value => exact .pure value
  | error error => exact .throw fun name herror => h name (congrArg _ herror)

/-- Computations in a row only add bindings if each of them does. -/
protected theorem bind {run : (Nat → Meaning) → Run σ α} {next : (Nat → Meaning) → α → Run σ β}
    (h : RunsAdding part view run)
    (hnext : ∀ result, RunsAdding part view fun other => next other result) :
    RunsAdding part view fun other => run other >>= next other := by
  intro state
  rw [OpenOutcome.bind_eq_andThen]
  exact (h state).andThen (fun _ => rfl) fun result after _ => hnext result after

/-- What goes on with its state only adds bindings if it does so for each state. -/
protected theorem get_bind {next : (Nat → Meaning) → σ → Run σ α}
    (h : ∀ state, RunsAdding part view fun other => next other state) :
    RunsAdding part view fun other => get >>= next other :=
  fun state => h state state

/-- A computation on a part of the state only adds bindings if it does so there. -/
protected theorem focus {other : τ → Environment} {enter : σ → τ} {leave : τ → σ → σ}
    {run : (Nat → Meaning) → Run τ α} (henter : ∀ state, other (enter state) = view state)
    (hleave : ∀ inner state, view (leave inner state) = other inner)
    (h : RunsAdding part other run) :
    RunsAdding part view fun parts => Run.focus enter leave (run parts) := by
  intro state
  rw [OpenOutcome.focus_eq_andThen, ← henter state]
  refine (h (enter state)).andThen (hleave · state) fun result inner _ => .ends ?_
  rintro _ _ ⟨⟩
  rw [hleave]
  exact adds_self nofun

/-- The evaluation of a part only adds bindings. -/
theorem evaluated (i : Nat) (this : This) :
    RunsAdding part Frame.environment fun other => (other i).evaluate this :=
  fun frame => .reading (show (⟨.evaluate this, frame⟩ : Task).mode.scope = .nested from rfl)

/-- The execution of a part only adds bindings. -/
theorem executed (i : Nat) (this : This) :
    RunsAdding part Frame.environment fun other => (other i).execute this :=
  fun frame => .reading (show (⟨.execute this, frame⟩ : Task).mode.scope = .nested from rfl)

/-- A part that is built inside a block only adds bindings. -/
theorem built (i : Nat) (this : This) :
    RunsAdding part id fun other => (other i).build .nested this :=
  fun environment =>
    .reading (show (⟨.build .nested this, environment⟩ : Task).mode.scope = .nested from rfl)

/-- In a frame of its own, a computation only adds bindings if it does so itself. -/
theorem inFrame {eval : (Nat → Meaning) → Eval α} (h : RunsAdding part Frame.environment eval) :
    RunsAdding part id fun other => Build.inFrame (eval other) :=
  .focus (fun _ => rfl) (fun _ _ => rfl) h

/-- On the bindings of a frame, a computation only adds bindings if it does so itself. -/
theorem onEnvironment {build : (Nat → Meaning) → Build α} (h : RunsAdding part id build) :
    RunsAdding part Frame.environment fun other => Eval.onEnvironment (build other) :=
  .focus (fun _ => rfl) (fun _ _ => rfl) h

/-- Inside of a loop, a computation only adds bindings if it does so itself. -/
theorem inLoop {eval : (Nat → Meaning) → Eval α} (h : RunsAdding part Frame.environment eval) :
    RunsAdding part Frame.environment fun other => Eval.inLoop (eval other) :=
  .focus (fun _ => rfl) (fun _ _ => rfl) h

/-- A binding only adds itself. -/
theorem define (name : String) (value : Value) :
    RunsAdding part Frame.environment fun _ => Eval.define name value :=
  .modify fun frame => .define frame.environment name value

/-- A name that is not found is not bound, and looking it up changes no bindings. -/
theorem lookup (name : String) : RunsAdding part Frame.environment fun _ => Eval.lookup name := by
  intro frame
  refine .ends fun result after hafter => ?_
  cases hname : frame.environment.lookup? name with
  | some value =>
    cases (Eval.lookup_of_some hname).symm.trans hafter
    exact adds_self nofun
  | none =>
    cases (Eval.lookup_of_none hname).symm.trans hafter
    refine adds_self ?_
    rintro _ ⟨⟩ hbinds
    exact hbinds hname

/-- To put out a value only adds the bindings that its evaluation adds. -/
theorem emitting {value : (Nat → Meaning) → Eval Value}
    (h : RunsAdding part Frame.environment value) :
    RunsAdding part Frame.environment fun other => Meaning.emitting (value other) :=
  .bind h fun _ => .bind (.modify fun _ => .refl _) fun _ => .pure _

/-- The value of a statement only adds the bindings that the statement adds. -/
theorem valueOf {statement : (Nat → Meaning) → Eval Flow}
    (h : RunsAdding part Frame.environment statement) :
    RunsAdding part Frame.environment fun other => Meaning.valueOf (statement other) :=
  .bind h fun flow => by cases flow <;> exact .pure _

/-- Operations on values look up no names. -/
theorem operation {P : α → Prop} {result : Except EvalError α}
    (h : Admits EvalError.IsOperation P result) :
    RunsAdding part view fun _ => Run.lift result := by
  refine .lift ?_
  rintro name rfl
  exact h

/-- The JSON of a value adds no binding. -/
theorem jsonOf (value : Value) : RunsAdding part view fun _ => Meaning.jsonOf value :=
  operation value.operates_toJson

/-- The integer of a value adds no binding. -/
theorem integer (value : Value) (use : OperandUse) :
    RunsAdding part view fun _ => Run.lift (value.asInteger use) := by
  refine .lift fun name => ?_
  cases value <;> nofun

/-- Building members inside a block only adds bindings, member after member. -/
theorem buildMembers (members : List (String × Node)) (place : Nat → Nat)
    (sofar : List (String × Json)) :
    RunsAdding part id fun other => Meaning.buildMembers .nested sofar
      (members.mapIdx fun i member => (member.1, other (place i))) := by
  induction members generalizing place sofar with
  | nil => exact .pure _
  | cons member rest ih =>
    simp only [List.mapIdx_cons]
    exact .bind (built _ _) fun value => ih (fun i => place (i + 1)) _

/-- Collecting items only adds bindings, item after item. -/
theorem collect {step : Meaning → Run σ Json}
    (h : ∀ i, RunsAdding part view fun other => step (other i)) (elements : List Node)
    (place : Nat → Nat) :
    RunsAdding part view fun other =>
      Meaning.collect step (elements.mapIdx fun i _ => other (place i)) := by
  induction elements generalizing place with
  | nil => exact .pure _
  | cons element rest ih =>
    simp only [List.mapIdx_cons]
    exact .bind (h _) fun item => .bind (ih fun i => place (i + 1)) fun _ => .pure _

/-- Statements in a row only add bindings, one after the other. -/
theorem sequence (this : This) (statements : List Node) (place : Nat → Nat) :
    RunsAdding part Frame.environment fun other =>
      Meaning.sequence this (statements.mapIdx fun i _ => other (place i)) := by
  induction statements generalizing place with
  | nil => exact .pure _
  | cons statement rest ih =>
    simp only [List.mapIdx_cons]
    refine .bind (executed _ _) fun flow => ?_
    cases flow with
    | proceed => exact ih fun i => place (i + 1)
    | _ => exact .pure _

/-- The call of a block only adds bindings, statement after statement. -/
theorem callBlock (this : This) (statements : List Node) :
    RunsAdding part id fun other =>
      Meaning.callBlock (statements.mapIdx fun i _ => other i) this := by
  refine inFrame (.bind (sequence this statements id) fun flow => ?_)
  cases flow with
  | proceed => exact .get_bind fun _ => .pure _
  | return_ value => exact .pure _
  | break_ | continue_ => exact .throw nofun

/-- A choice only adds bindings, in its conditions and in the body that it takes. -/
theorem choose (this : This) (cases : List (Node × Node)) (condition body : Nat → Nat)
    (otherwise : Option Node) (last : Nat) :
    RunsAdding part Frame.environment fun other =>
      Meaning.choose this (otherwise.map fun _ => other last)
        (cases.mapIdx fun i _ => (other (condition i), other (body i))) := by
  induction cases generalizing condition body with
  | nil =>
    cases otherwise with
    | none => exact .pure _
    | some node => exact executed last this
  | cons case rest ih =>
    simp only [List.mapIdx_cons]
    refine .bind (evaluated _ _) fun value => ?_
    cases value.isTruthy with
    | true => exact executed _ _
    | false => exact ih (fun i => condition (i + 1)) fun i => body (i + 1)

/-- A loop `while` only adds bindings, round after round. -/
theorem whileLoop (this : This) (i j rounds : Nat) :
    RunsAdding part Frame.environment fun other =>
      Meaning.whileLoop ((other i).evaluate this) ((other j).execute this) rounds := by
  induction rounds with
  | zero => exact .unfinished
  | succ rounds ih =>
    refine .bind (evaluated i this) fun value => ?_
    cases value.isTruthy with
    | false => exact .pure _
    | true =>
      refine .bind (executed j this) fun flow => ?_
      cases flow with
      | proceed | continue_ => exact ih
      | break_ | return_ => exact .pure _

/-- A loop that counts only adds bindings, round after round. -/
theorem countLoop (this : This) (i : Nat) (name : String) (stop step current : Int64) :
    RunsAdding part Frame.environment fun other =>
      Meaning.countLoop name ((other i).execute this) stop step current := by
  induction current using Meaning.countLoop.induct stop step with
  | case2 current hrange =>
    have heq (body : Eval Flow) :
        Meaning.countLoop name body stop step current = Pure.pure .proceed := by
      rw [Meaning.countLoop, dif_neg hrange]
    simp only [heq]
    exact .pure _
  | case1 current hrange ih =>
    intro frame
    simp only [Meaning.countLoop_apply hrange]
    refine .of_grows (.define frame.environment name (.integer current)) ?_
    refine RunsAdding.bind (executed i this) (fun flow => ?_) (frame.define name (.integer current))
    cases flow with
    | proceed | continue_ =>
      dsimp only
      cases hnext : integer? (current.toInt + step.toInt) with
      | none => exact .pure _
      | some next => exact ih next hnext
    | break_ | return_ => exact .pure _

end RunsAdding

/-- The bindings on which a scope starts grow to those that were there before it. -/
theorem Scope.enter_growsTo (scope : Scope) (environment : Environment) :
    (scope.enter environment).GrowsTo environment := by
  cases scope with
  | root => exact ⟨environment.bindings, (List.append_nil _).symm⟩
  | nested => exact .refl environment

namespace AddsInTurn

variable {part : Nat → Meaning} {α : Type}

/-- A part of the document that is built at its root starts from no bindings. -/
theorem start {scope : Scope} {next : (Nat → Meaning) → Build α} (h : RunsAdding part id next)
    (environment : Environment) :
    AddsInTurn part id (scope.enter environment) fun other =>
      (Meaning.start scope >>= fun _ => next other) environment := by
  cases scope <;> exact h _

/-- Building the value of a part only adds bindings to those on which its scope starts. -/
theorem building {evaluate : (Nat → Meaning) → This → Eval Value}
    (h : RunsAdding part Frame.environment fun other => evaluate other none) (scope : Scope)
    (this : This) (environment : Environment) :
    AddsInTurn part id (scope.enter environment) fun other =>
      Meaning.building (evaluate other) scope this environment :=
  start (.bind (.inFrame h) fun value => .jsonOf value) environment

/-- An expression only adds bindings, in all three readings. -/
theorem ofExpression {evaluate : (Nat → Meaning) → This → Eval Value} {task : Task}
    (h : RunsAdding part Frame.environment fun other => evaluate other task.mode.object) :
    AddsInTurn part task.mode.environment task.frame.environment fun other =>
      (Meaning.ofExpression (evaluate other)).perform task := by
  obtain ⟨mode, state⟩ := task
  cases mode with
  | evaluate this => exact h state
  | execute this => exact RunsAdding.emitting h state
  | build scope this => exact building h scope this state

/-- A statement only adds bindings, in all three readings. -/
theorem ofStatement {execute : (Nat → Meaning) → This → Eval Flow} {task : Task}
    (h : RunsAdding part Frame.environment fun other => execute other task.mode.object) :
    AddsInTurn part task.mode.environment task.frame.environment fun other =>
      (Meaning.ofStatement (execute other)).perform task := by
  obtain ⟨mode, state⟩ := task
  cases mode with
  | evaluate this => exact RunsAdding.valueOf h state
  | execute this => exact h state
  | build scope this =>
    change AddsInTurn part id (scope.enter state) fun other =>
      Meaning.building (fun this => Meaning.valueOf (execute other this)) scope this state
    exact building (.valueOf h) scope this state

/-- A literal adds no binding. -/
theorem literal (value : Value) (json : Json) (task : Task) :
    AddsInTurn part task.mode.environment task.frame.environment fun _ =>
      (Meaning.literal value json).perform task := by
  obtain ⟨mode, state⟩ := task
  cases mode with
  | evaluate this => exact RunsAdding.pure value state
  | execute this => exact RunsAdding.emitting (.pure value) state
  | build scope this => exact .of_grows (scope.enter_growsTo state) (RunsAdding.pure json state)

/-- An object inside a block only adds bindings. -/
theorem object {task : Task} (hscope : task.mode.scope = .nested)
    (members : List (String × Node)) :
    AddsInTurn part task.mode.environment task.frame.environment fun other =>
      (Meaning.object (members.mapIdx fun i member => (member.1, other i))).perform task := by
  have hmembers : RunsAdding part id fun other => Meaning.buildMembers .nested []
      (members.mapIdx fun i member => (member.1, other i)) := .buildMembers members id []
  have hvalue : RunsAdding part Frame.environment fun other =>
      Meaning.objectValue (members.mapIdx fun i member => (member.1, other i)) :=
    .bind (.onEnvironment hmembers) fun _ => .pure _
  obtain ⟨mode, state⟩ := task
  cases mode with
  | evaluate this => exact hvalue state
  | execute this => exact RunsAdding.emitting hvalue state
  | build scope this =>
    obtain rfl : scope = .nested := hscope
    exact hmembers state

/-- An array inside a block only adds bindings. -/
theorem array {task : Task} (hscope : task.mode.scope = .nested) (elements : List Node) :
    AddsInTurn part task.mode.environment task.frame.environment fun other =>
      (Meaning.array (elements.mapIdx fun i _ => other i)).perform task := by
  have hvalue (this : This) : RunsAdding part Frame.environment fun other =>
      Meaning.arrayValue (elements.mapIdx fun i _ => other i) this :=
    .bind (.collect (fun i => .bind (.evaluated i this) fun value => .jsonOf value) elements id)
      fun _ => .pure _
  obtain ⟨mode, state⟩ := task
  cases mode with
  | evaluate this => exact hvalue this state
  | execute this => exact RunsAdding.emitting (hvalue this) state
  | build scope this =>
    obtain rfl : scope = .nested := hscope
    exact RunsAdding.bind (.collect (fun i => .built i none) elements id) (fun _ => .pure _) state

/-- A block only adds bindings, also at the root of the document. -/
theorem block (task : Task) (statements : List Node) :
    AddsInTurn part task.mode.environment task.frame.environment fun other =>
      (Meaning.block (statements.mapIdx fun i _ => other i)).perform task := by
  obtain ⟨mode, state⟩ := task
  cases mode with
  | evaluate this => exact RunsAdding.onEnvironment (.callBlock this statements) state
  | execute this => exact RunsAdding.sequence this statements id state
  | build scope this =>
    exact start (.bind (.callBlock this statements) fun value => .jsonOf value) state

/-- The places of the start, the end, the step and the body are given. -/
theorem for_ (i j k l : Nat) (step : Option Node) (name : String) (task : Task) :
    AddsInTurn part task.mode.environment task.frame.environment fun other =>
      (Meaning.for_ name (other i) (other j) (step.map fun _ => other k) (other l)).perform
        task := by
  refine ofStatement (.inLoop ?_)
  refine .bind (.evaluated i _) fun first => .bind (.integer first _) fun first => ?_
  refine .bind (.evaluated j _) fun last => .bind (.integer last _) fun last => ?_
  refine .bind ?_ fun stride => ?_
  · cases step with
    | none => exact .pure _
    | some node => exact .bind (.evaluated k _) fun value => .integer value _
  · split
    · exact .throw nofun
    · exact .countLoop _ l name last stride first

end AddsInTurn

/-- Inside a block the bindings of a reading are those of the frame in which it evaluates. -/
theorem Task.frame_environment {task : Task} (h : task.mode.scope = .nested) :
    task.frame.environment = task.environment := by
  obtain ⟨mode, state⟩ := task
  cases mode with
  | evaluate this | execute this => rfl
  | build scope this =>
    obtain rfl : scope = .nested := h
    rfl

namespace Node

variable {rounds : Nat} {node : Node} {task : Task}

/-- A node whose parts are built where it is built itself, also at the root of the document. -/
def BuildsParts : Node → Prop
  | object _ | array _ => True
  | _ => False

/-- A node only adds bindings, as far as its parts do. -/
theorem addsInTurn (rounds : Nat) (part : Nat → Meaning)
    (hscope : node.BuildsParts → task.mode.scope = .nested) :
    AddsInTurn part task.mode.environment task.frame.environment
      fun other => (node.assemble rounds other).perform task := by
  cases node with
  | object members => exact .object (hscope trivial) members
  | array elements => exact .array (hscope trivial) elements
  | block statements => exact .block task statements
  | string | integer | boolean | null => exact .literal _ _ task
  | float value => exact .ofExpression (.pure _)
  | lookup name => exact .ofExpression (.lookup name)
  | this path =>
    refine .ofExpression ?_
    unfold Meaning.resolve
    cases task.mode.object with
    | none => exact .throw nofun
    | some members =>
      dsimp only
      cases Json.walk? path (.object members) with
      | some json => exact .pure _
      | none => exact .throw nofun
  | assign name value =>
    refine .ofStatement (.bind (.evaluated 0 _) fun value => ?_)
    exact .bind (.define name value) fun _ => .pure _
  | return_ value => exact .ofStatement (.bind (.evaluated 0 _) fun _ => .pure _)
  | negate operand =>
    exact .ofExpression (.bind (.evaluated 0 _) fun value => .operation value.operates_neg)
  | binary operator left right =>
    refine .ofExpression (.bind (.evaluated 0 _) fun l => .bind (.evaluated 1 _) fun r => ?_)
    exact .operation (Value.operates_apply operator l r)
  | break_ | continue_ =>
    refine .ofStatement (.get_bind fun frame => ?_)
    split
    · exact .pure _
    · exact .throw nofun
  | cond cases otherwise =>
    exact .ofStatement (.choose _ cases (2 * ·) (2 * · + 1) otherwise (2 * cases.length))
  | while_ condition body => exact .ofStatement (.inLoop (.whileLoop _ 0 1 rounds))
  | for_ name start stop step body =>
    cases step with
    | none => exact .for_ 0 1 2 2 none name task
    | some step => exact .for_ 0 1 2 3 (some step) name task

/-- The literal `null` only adds bindings. -/
theorem addsBindings_null (rounds : Nat) : (null.meaning rounds).AddsBindings := by
  rintro ⟨mode, state⟩ result after - hperform
  cases mode <;> cases hperform <;> exact adds_self nofun

/-- Inside a block every reading of every tree only adds bindings. -/
theorem addsBindings (rounds : Nat) (node : Node) : (node.meaning rounds).AddsBindings := by
  induction node using induction_parts with
  | step node ih =>
    intro task result after hscope hperform
    have hparts (i : Nat) : (meaningAt rounds node.parts i).AddsBindings := by
      cases hpart : node.parts[i]? with
      | none =>
        rw [meaningAt, hpart]
        exact addsBindings_null rounds
      | some part =>
        rw [meaningAt_of_getElem? hpart]
        exact ih part (List.mem_of_getElem? hpart)
    have hturn : AddsInTurn (meaningAt rounds node.parts) task.mode.environment
        task.frame.environment fun other => (node.assemble rounds other).perform task :=
      addsInTurn rounds _ fun _ => hscope
    rw [meaning_eq_assemble] at hperform
    rw [← Task.frame_environment hscope]
    exact hturn.adds hparts hperform

/-- The meaning of a part only adds bindings, whether there is such a part or not. -/
theorem addsBindings_meaningAt (rounds : Nat) (nodes : List Node) (i : Nat) :
    (meaningAt rounds nodes i).AddsBindings := addsBindings rounds _

/-- A reading adds to the bindings that it starts from, or to none where it forgets them first. -/
theorem adds_of_perform (hscope : node.BuildsParts → task.mode.scope = .nested)
    {result : Except EvalError task.mode.Result} {last : task.mode.State}
    (h : (node.meaning rounds).perform task = some (result, last)) :
    Adds task.frame.environment result (task.mode.environment last) := by
  rw [meaning_eq_assemble] at h
  exact (addsInTurn rounds _ hscope).adds (addsBindings_meaningAt rounds node.parts) h

/-- A reading takes place inside a block, within the reading of a tree: it finds the given bindings,
with none or more added to them, and where the tree comes to an end, it has done so as well, and the
tree leaves the bindings that it has left, with none or more added to them. -/
structure GrowsWithin (rounds : Nat) (node : Node) (task : Task) (before : Environment)
    (tree : Node) (start : Task) : Prop where
  nested : task.mode.scope = .nested
  grows : before.GrowsTo task.environment
  ends : ∀ result last, (tree.meaning rounds).perform start = some (result, last) →
    ∃ first after, (node.meaning rounds).perform task = some (first, after) ∧
      (task.mode.environment after).GrowsTo (start.mode.environment last)

/-- A reading within one within the tree is within the tree. -/
theorem GrowsWithin.trans {part tree : Node} {called start : Task} {before : Environment}
    (h : part.GrowsWithin rounds called before tree start)
    (hinner : node.GrowsWithin rounds task called.environment part called) :
    node.GrowsWithin rounds task before tree start where
  nested := hinner.nested
  grows := h.grows.trans hinner.grows
  ends result last hlast := by
    obtain ⟨middle, left, hmiddle, hleft⟩ := h.ends result last hlast
    obtain ⟨first, after, hfirst, hafter⟩ := hinner.ends middle left hmiddle
    exact ⟨first, after, hfirst, hafter.trans hleft⟩

/-- A part takes its reading within that of its node, if parts are built only inside of blocks. -/
theorem Calls.growsWithin {part : Node} {i : Nat} {called : Task}
    (h : node.Calls rounds task i called) (hpart : node.parts[i]? = some part)
    (hscope : node.BuildsParts → task.mode.scope = .nested) :
    part.GrowsWithin rounds called task.frame.environment node task := by
  have hturn : AddsInTurn (meaningAt rounds node.parts) task.mode.environment
      task.frame.environment fun other => (node.assemble rounds other).perform task :=
    addsInTurn rounds _ hscope
  obtain ⟨hnested, hgrows, hends⟩ := hturn.of_called (addsBindings_meaningAt rounds node.parts) h
  rw [meaningAt_of_getElem? hpart, ← meaning_eq_assemble] at hends
  exact ⟨hnested, hgrows, hends⟩

/-- Inside a block the bindings grow along the readings that a reading reaches. -/
theorem Reached.growsWithin {tree : Node} {start : Task} {place : List Nat}
    (h : node.Reached rounds task tree start place) (hscope : start.mode.scope = .nested) :
    node.GrowsWithin rounds task start.environment tree start := by
  induction h with
  | here => exact ⟨hscope, .refl _, fun result last hlast => ⟨result, last, hlast, .refl _⟩⟩
  | inside hpart hcalls _ ih =>
    have hpart := hcalls.growsWithin hpart fun _ => hscope
    rw [Task.frame_environment hscope] at hpart
    exact hpart.trans (ih hpart.nested)

variable {statements : List Node} {start : Task} {i : Nat} {below : List Nat}

/-- The bindings grow along the readings that a block reaches, from those on that it starts with. At
the root of the document it starts with none. -/
theorem Reached.growsWithin_block
    (h : node.Reached rounds task (block statements) start (i :: below)) :
    node.GrowsWithin rounds task start.frame.environment (block statements) start := by
  cases h with
  | inside hpart hcalls hreached =>
    have hpart := hcalls.growsWithin hpart nofun
    exact hpart.trans (hreached.growsWithin hpart.nested)

/-- A name that is bound where a reading in a block starts or ends is bound where the block ends. -/
theorem Reached.binds_block {name : String}
    (h : node.Reached rounds task (block statements) start (i :: below))
    (hname : task.environment.Binds name ∨ ∃ result after,
      (node.meaning rounds).perform task = some (result, after) ∧
        (task.mode.environment after).Binds name)
    {result : Except EvalError start.mode.Result} {last : start.mode.State}
    (hlast : ((block statements).meaning rounds).perform start = some (result, last)) :
    (start.mode.environment last).Binds name := by
  have hwithin := h.growsWithin_block
  obtain ⟨first, after, hfirst, hgrows⟩ := hwithin.ends result last hlast
  refine hgrows.binds ?_
  rcases hname with hname | ⟨_, _, hperform, hname⟩
  · exact (addsBindings rounds node task first after hwithin.nested hfirst).grows.binds hname
  · cases hfirst.symm.trans hperform
    exact hname

end Node

/-- The readings inside blocks only add bindings. -/
structure OnlyAddsBindings (rounds : Nat) : Prop where
  evaluate : ∀ (node : Node) this (frame : Frame) result after,
    (node.meaning rounds).evaluate this frame = some (result, after) →
      frame.environment.GrowsTo after.environment
  execute : ∀ (node : Node) this (frame : Frame) result after,
    (node.meaning rounds).execute this frame = some (result, after) →
      frame.environment.GrowsTo after.environment
  callBlock : ∀ (statements : List Node) this environment result after,
    Meaning.callBlock (Node.meanings rounds statements) this environment = some (result, after) →
      environment.GrowsTo after
  build : ∀ (node : Node) this environment result after,
    (node.meaning rounds).build .nested this environment = some (result, after) →
      environment.GrowsTo after
  /-- A name that is bound where a reading inside a block starts is bound where the reading ends,
  and the reading does not fail for want of it. -/
  bound : ∀ (node : Node) (task : Task) name, task.mode.scope = .nested →
    task.environment.Binds name →
      (∀ result after, (node.meaning rounds).perform task = some (result, after) →
        (task.mode.environment after).Binds name) ∧
      ¬(node.meaning rounds).FailsWith task (.unboundVariable name)
  /-- Along all that a block reaches, the bindings grow from those on that the block starts with, up
  to those that it leaves. -/
  inside : ∀ (statements : List Node) start (node : Node) task i below,
    node.Reached rounds task (.block statements) start (i :: below) →
      node.GrowsWithin rounds task start.frame.environment (.block statements) start
  /-- Once a name is bound in a block, the block does not fail for want of it, and all lookups of
  the name that it reaches find it. -/
  found : ∀ (statements : List Node) start (node : Node) task i below name,
    node.Reached rounds task (.block statements) start (i :: below) →
      (task.environment.Binds name ∨ ∃ result after,
        (node.meaning rounds).perform task = some (result, after) ∧
          (task.mode.environment after).Binds name) →
      ¬((Node.block statements).meaning rounds).FailsWith start (.unboundVariable name) ∧
        ∀ lookup j deeper,
          (Node.lookup name).Reached rounds lookup (.block statements) start (j :: deeper) →
            lookup.environment.Binds name

/-- In every tree the readings inside blocks only add bindings, so a name that is bound in a block
is found from then on. -/
theorem onlyAddsBindings (rounds : Nat) : OnlyAddsBindings rounds := by
  have hevaluate (node : Node) (this : This) (frame : Frame) result after
      (h : (node.meaning rounds).evaluate this frame = some (result, after)) :
      frame.environment.GrowsTo after.environment :=
    (node.addsBindings rounds ⟨.evaluate this, frame⟩ result after rfl h).grows
  constructor
  case evaluate => exact hevaluate
  case execute =>
    exact fun node this frame result after h =>
      (node.addsBindings rounds ⟨.execute this, frame⟩ result after rfl h).grows
  case build =>
    exact fun node this environment result after h =>
      (node.addsBindings rounds ⟨.build .nested this, environment⟩ result after rfl h).grows
  case callBlock =>
    -- A block in value position is called just so.
    intro statements this environment result after h
    exact hevaluate (.block statements) this ⟨environment, #[], 0⟩ result ⟨after, #[], 0⟩
      (congrArg (Option.map _) h)
  case bound =>
    intro node task name hscope hname
    have hadds := fun result after => node.addsBindings rounds task result after hscope
    refine ⟨fun result after h => (hadds result after h).grows.binds hname, ?_⟩
    rintro ⟨after, hafter⟩
    have hfails := hadds _ after hafter
    exact hfails.unbound name rfl (hfails.grows.binds hname)
  case inside => exact fun _ _ _ _ _ _ h => h.growsWithin_block
  case found =>
    intro statements start node task i below name hreached hname
    have hblock : (Node.block statements).BuildsParts → start.mode.scope = .nested := nofun
    have hfails : ¬((Node.block statements).meaning rounds).FailsWith start
        (.unboundVariable name) := by
      rintro ⟨last, hlast⟩
      exact (Node.adds_of_perform hblock hlast).unbound name rfl (hreached.binds_block hname hlast)
    refine ⟨hfails, fun lookup j deeper hlookup => ?_⟩
    by_contra hunbound
    refine hfails (hlookup.failsWith (Meaning.failsWith_ofExpression ⟨lookup.frame, ?_⟩))
    refine Eval.lookup_of_none ?_
    rw [Task.frame_environment hlookup.growsWithin_block.nested]
    exact not_not.mp hunbound

end JsonTemplate
