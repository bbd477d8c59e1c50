import JsonTemplate.Evaluation.Ending
import JsonTemplate.Proofs.Evaluation.Readings

/-!
# Invariants of evaluation

A property of values that every operation on values keeps is kept by every computation of a
tree: it holds of all bindings, of all that is put out, of every result and of every document
that is built. The trees are arbitrary, with loops, and nothing is said about computations that
do not end.

What has to be kept is stated once, as `Stable`, for a property of values together with one of
JSON values, because blocks turn the one into the other in both directions.
-/

namespace JsonTemplate

/-- A property of the result of a computation that may fail. -/
def IfOk {α : Type} (P : α → Prop) : Except EvalError α → Prop
  | .ok result => P result
  | .error _ => True

/-- Every result is something if it is one. -/
theorem ifOk_true {α : Type} (result : Except EvalError α) : IfOk (fun _ => True) result := by
  cases result <;> trivial

namespace Run

variable {σ τ α β : Type} {I : σ → Prop} {J : τ → Prop} {P : α → Prop} {Q : β → Prop}

/-- A computation that keeps a property of the state, whether it ends with a result or an
error, and gives results with a property. -/
def Keeps (I : σ → Prop) (P : α → Prop) (run : Run σ α) : Prop :=
  ∀ state, I state → ∀ result after, run state = some (result, after) → I after ∧ IfOk P result

namespace Keeps

/-- What is kept may be weakened in the result. -/
protected theorem mono {Q : α → Prop} {run : Run σ α} (h : run.Keeps I P)
    (himp : ∀ result, P result → Q result) : run.Keeps I Q := by
  intro state hstate result after hrun
  obtain ⟨hafter, hresult⟩ := h state hstate result after hrun
  cases result with
  | ok value => exact ⟨hafter, himp value hresult⟩
  | error error => exact ⟨hafter, trivial⟩

/-- Giving a result keeps the state as it is. -/
protected theorem pure {result : α} (h : P result) : (pure result : Run σ α).Keeps I P := by
  intro state hstate _ _ hrun
  cases hrun
  exact ⟨hstate, h⟩

/-- Failing keeps the state as it is. -/
protected theorem throw (error : EvalError) : (throw error : Run σ α).Keeps I P := by
  intro state hstate _ _ hrun
  cases hrun
  exact ⟨hstate, trivial⟩

/-- A computation that does not end keeps everything. -/
protected theorem unfinished : (unfinished : Run σ α).Keeps I P :=
  fun _ _ _ _ hrun => nomatch hrun

/-- Looking at a state gives what holds of the state. -/
protected theorem get : (get : Run σ σ).Keeps I I := by
  intro state hstate _ _ hrun
  cases hrun
  exact ⟨hstate, hstate⟩

/-- Setting a state keeps what holds of that state. -/
protected theorem set {state : σ} (h : I state) :
    (set state : Run σ PUnit).Keeps I fun _ => True := by
  intro _ _ _ _ hrun
  cases hrun
  exact ⟨h, trivial⟩

/-- Changing the state keeps what the change keeps. -/
protected theorem modify {f : σ → σ} (h : ∀ state, I state → I (f state)) :
    (modify f : Run σ PUnit).Keeps I fun _ => True := by
  intro state hstate _ _ hrun
  cases hrun
  exact ⟨h state hstate, trivial⟩

/-- A pure step keeps the state as it is. -/
protected theorem lift {result : Except EvalError α} (h : IfOk P result) :
    (lift result : Run σ α).Keeps I P := by
  intro state hstate _ _ hrun
  rw [lift_apply] at hrun
  cases hrun
  exact ⟨hstate, h⟩

/-- Two computations in a row keep what each of them keeps. -/
protected theorem bind {run : Run σ α} {next : α → Run σ β} (hrun : run.Keeps I P)
    (hnext : ∀ result, P result → (next result).Keeps I Q) : (run >>= next).Keeps I Q := by
  intro state hstate result after hbind
  rw [bind_apply] at hbind
  cases h : run state with
  | none =>
    rw [h] at hbind
    cases hbind
  | some outcome =>
    obtain ⟨first, between⟩ := outcome
    obtain ⟨hbetween, hfirst⟩ := hrun state hstate first between h
    rw [h] at hbind
    cases first with
    | ok value => exact hnext value hfirst between hbetween result after hbind
    | error error =>
      cases hbind
      exact ⟨hbetween, trivial⟩

/-- A computation on a part of the state keeps what holds of that part and of the rest. -/
protected theorem focus {enter : σ → τ} {leave : τ → σ → σ} {run : Run τ α}
    (henter : ∀ state, I state → J (enter state))
    (hleave : ∀ inner state, J inner → I state → I (leave inner state))
    (hrun : run.Keeps J P) : (focus enter leave run).Keeps I P := by
  intro state hstate result after hfocus
  obtain ⟨⟨inner, left⟩, hinner, heq⟩ := Option.map_eq_some_iff.mp hfocus
  cases heq
  obtain ⟨hleft, hresult⟩ := hrun (enter state) (henter state hstate) _ _ hinner
  exact ⟨hleave left state hleft hstate, hresult⟩

end Keeps

end Run

/-- A property of values and one of JSON values that all operations keep. -/
structure Stable (V : Value → Prop) (J : Json → Prop) : Prop where
  integer : ∀ n, V (.integer n)
  text : ∀ text, V (.text text)
  boolean : ∀ value, V (.boolean value)
  null : V .null
  ofJson : ∀ json, J json → V (.ofJson json)
  toJson : ∀ value, V value → IfOk J value.toJson
  apply : ∀ operator left right, V left → V right → IfOk V (Value.apply operator left right)
  neg : ∀ operand, V operand → IfOk V operand.neg
  array : ∀ items, (∀ item ∈ items, J item) → J (.array items)
  object_nil : J (.object [])
  insertMember : ∀ name value members, J value → J (.object members) →
    J (.object (Json.insertMember name value members))
  walk? : ∀ path json result, J json → Json.walk? path json = some result → J result

variable (V : Value → Prop) (J : Json → Prop)

/-- All values that names are bound to. -/
def Environment.All (environment : Environment) : Prop :=
  ∀ binding ∈ environment.bindings, V binding.2

/-- All values that a running block has bound or put out. -/
structure Frame.All (frame : Frame) : Prop where
  environment : frame.environment.All V
  output : ∀ value ∈ frame.output, V value

/-- The value that a block is left with. -/
def Flow.All : Flow → Prop
  | .return_ value => V value
  | _ => True

/-- The object being built. -/
def This.All (this : This) : Prop := ∀ members ∈ this, J (.object members)

/-- A meaning with the property in each of its readings. -/
structure Meaning.Keeps (meaning : Meaning) : Prop where
  evaluate : ∀ this, This.All J this → (meaning.evaluate this).Keeps (Frame.All V) V
  execute : ∀ this, This.All J this → (meaning.execute this).Keeps (Frame.All V) (Flow.All V)
  build : ∀ scope this, This.All J this →
    (meaning.build scope this).Keeps (Environment.All V) J

section

variable {V : Value → Prop} {J : Json → Prop}

/-- Binding a value of a kind keeps the bindings of that kind. -/
theorem Environment.All.define {environment : Environment} (h : environment.All V) {value : Value}
    (hvalue : V value) (name : String) : (environment.define name value).All V :=
  List.forall_mem_cons.mpr ⟨hvalue, h⟩

/-- An environment without bindings has bindings of any kind. -/
theorem Environment.all_empty : Environment.empty.All V := nofun

/-- A name stands for a value of the kind of all bindings. -/
theorem Environment.All.lookup? {environment : Environment} (h : environment.All V)
    {name : String} {value : Value} (hlookup : environment.lookup? name = some value) :
    V value := by
  obtain ⟨before, after, hbindings, -⟩ := List.lookup_eq_some_iff.mp hlookup
  apply h (name, value)
  rw [hbindings]
  exact List.mem_append_right _ List.mem_cons_self

/-- Without an object being built, there is nothing of another kind in it. -/
theorem This.all_none : This.All J none := nofun

/-- An object of a kind is of that kind while it is being built. -/
theorem This.all_some {members : List (String × Json)} (h : J (.object members)) :
    This.All J (some members) := by
  rintro _ ⟨⟩
  exact h

namespace Eval

/-- Binding a value of a kind keeps a frame of that kind. -/
theorem keeps_define (name : String) {value : Value} (h : V value) :
    (define name value).Keeps (Frame.All V) fun _ => True :=
  .modify fun _ hframe => ⟨hframe.environment.define h name, hframe.output⟩

/-- Putting out a value of a kind keeps a frame of that kind. -/
theorem keeps_emit {value : Value} (h : V value) :
    (emit value).Keeps (Frame.All V) fun _ => True := by
  refine .modify fun frame hframe => ⟨hframe.environment, fun other hother => ?_⟩
  rcases Array.mem_push.mp hother with hold | rfl
  · exact hframe.output other hold
  · exact h

/-- A name in a frame of a kind stands for a value of that kind. -/
theorem keeps_lookup (name : String) : (lookup name).Keeps (Frame.All V) V := by
  refine .bind .get fun frame hframe => ?_
  split
  · rename_i value hlookup
    exact .pure (hframe.environment.lookup? hlookup)
  · exact .throw _

/-- Building inside a frame keeps its kind if it keeps that of the bindings. -/
theorem keeps_onEnvironment {α : Type} {P : α → Prop} {build : Build α}
    (h : build.Keeps (Environment.All V) P) : (onEnvironment build).Keeps (Frame.All V) P :=
  .focus (fun _ hframe => hframe.environment)
    (fun _ _ henvironment hframe => ⟨henvironment, hframe.output⟩) h

/-- A loop keeps the kind of a frame if what runs in it does. -/
theorem keeps_inLoop {α : Type} {P : α → Prop} {eval : Eval α}
    (h : eval.Keeps (Frame.All V) P) : (inLoop eval).Keeps (Frame.All V) P :=
  .focus (fun _ hframe => ⟨hframe.environment, hframe.output⟩)
    (fun _ _ hinner _ => ⟨hinner.environment, hinner.output⟩) h

end Eval

/-- Evaluating in a new frame keeps the kind of the bindings if it keeps that of the frame. -/
theorem Build.keeps_inFrame {α : Type} {P : α → Prop} {eval : Eval α}
    (h : eval.Keeps (Frame.All V) P) : (inFrame eval).Keeps (Environment.All V) P :=
  .focus (fun _ henvironment => ⟨henvironment, nofun⟩) (fun _ _ hinner _ => hinner.environment) h

namespace Meaning

/-- Starting to build keeps the kind of the bindings. -/
theorem keeps_start (scope : Scope) :
    (start scope).Keeps (Environment.All V) fun _ => True := by
  cases scope with
  | root => exact .set Environment.all_empty
  | nested => exact .pure trivial

/-- A value of a kind is converted to JSON of that kind. -/
theorem keeps_jsonOf (stable : Stable V J) {σ : Type} {I : σ → Prop} {value : Value}
    (h : V value) : (jsonOf value : Run σ Json).Keeps I J :=
  .lift (stable.toJson value h)

/-- Putting out what is evaluated keeps the kind of the frame. -/
theorem keeps_emitting {value : Eval Value} (h : value.Keeps (Frame.All V) V) :
    (emitting value).Keeps (Frame.All V) (Flow.All V) :=
  .bind h fun _ hvalue => .bind (Eval.keeps_emit hvalue) fun _ _ => .pure trivial

/-- Building what is evaluated gives JSON of the kind of the value. -/
theorem keeps_building (stable : Stable V J) {evaluate : This → Eval Value}
    (h : (evaluate none).Keeps (Frame.All V) V) (scope : Scope) (this : This) :
    (building evaluate scope this).Keeps (Environment.All V) J :=
  .bind (keeps_start scope) fun _ _ =>
    .bind (Build.keeps_inFrame h) fun _ hvalue => keeps_jsonOf stable hvalue

/-- An expression keeps kinds if evaluating it does. -/
theorem keeps_ofExpression (stable : Stable V J) {evaluate : This → Eval Value}
    (h : ∀ this, This.All J this → (evaluate this).Keeps (Frame.All V) V) :
    (ofExpression evaluate).Keeps V J where
  evaluate := h
  execute this hthis := keeps_emitting (h this hthis)
  build scope this _ := keeps_building stable (h none This.all_none) scope this

/-- The value of a statement is of the kind of its results. -/
theorem keeps_valueOf (stable : Stable V J) {statement : Eval Flow}
    (h : statement.Keeps (Frame.All V) (Flow.All V)) :
    (valueOf statement).Keeps (Frame.All V) V := by
  refine .bind h fun flow hflow => ?_
  cases flow with
  | return_ value => exact .pure hflow
  | _ => exact .pure stable.null

/-- A statement keeps kinds if executing it does. -/
theorem keeps_ofStatement (stable : Stable V J) {execute : This → Eval Flow}
    (h : ∀ this, This.All J this → (execute this).Keeps (Frame.All V) (Flow.All V)) :
    (ofStatement execute).Keeps V J where
  evaluate this hthis := keeps_valueOf stable (h this hthis)
  execute := h
  build scope this _ := by
    change (building (fun this => valueOf (execute this)) scope this).Keeps _ _
    exact keeps_building stable (keeps_valueOf stable (h none This.all_none)) scope this

/-- A literal of a kind is of that kind in all its readings. -/
theorem keeps_literal {value : Value} {json : Json} (hvalue : V value) (hjson : J json) :
    (literal value json).Keeps V J where
  evaluate _ _ := .pure hvalue
  execute _ _ := keeps_emitting (.pure hvalue)
  build _ _ _ := .pure hjson

/-- Looking up a name keeps kinds. -/
theorem keeps_lookup (stable : Stable V J) (name : String) : (lookup name).Keeps V J :=
  keeps_ofExpression stable fun _ _ => Eval.keeps_lookup name

/-- An operation keeps kinds if its operands do. -/
theorem keeps_binary (stable : Stable V J) (operator : Operator) {left right : Meaning}
    (hl : left.Keeps V J) (hr : right.Keeps V J) : (binary operator left right).Keeps V J :=
  keeps_ofExpression stable fun this hthis =>
    .bind (hl.evaluate this hthis) fun _ hleft =>
    .bind (hr.evaluate this hthis) fun _ hright => .lift (stable.apply _ _ _ hleft hright)

/-- A change of sign keeps kinds if its operand does. -/
theorem keeps_negate (stable : Stable V J) {operand : Meaning} (h : operand.Keeps V J) :
    (negate operand).Keeps V J :=
  keeps_ofExpression stable fun this hthis =>
    .bind (h.evaluate this hthis) fun _ hoperand => .lift (stable.neg _ hoperand)

/-- A path keeps kinds. -/
theorem keeps_this (stable : Stable V J) (path : List Accessor) : (this path).Keeps V J := by
  apply keeps_ofExpression stable
  intro this hthis
  cases this with
  | none => exact .throw _
  | some members =>
    have hmembers := hthis members rfl
    unfold resolve
    dsimp only
    split
    · rename_i json hwalk
      exact .pure (stable.ofJson json (stable.walk? _ _ _ hmembers hwalk))
    · exact .throw _

/-- Building members keeps kinds if each of them does. -/
theorem keeps_buildMembers (stable : Stable V J) {members : List (String × Meaning)}
    (h : ∀ member ∈ members, member.2.Keeps V J) (scope : Scope)
    {sofar : List (String × Json)} (hsofar : J (.object sofar)) :
    (buildMembers scope sofar members).Keeps (Environment.All V) J := by
  induction members generalizing sofar with
  | nil => exact .pure hsofar
  | cons member rest ih =>
    obtain ⟨hmember, hrest⟩ := List.forall_mem_cons.mp h
    exact .bind (hmember.build scope (some sofar) (This.all_some hsofar)) fun value hvalue =>
      ih hrest (stable.insertMember _ _ _ hvalue hsofar)

/-- Collecting items keeps kinds if each step does. -/
theorem keeps_collect {σ : Type} {I : σ → Prop} {step : Meaning → Run σ Json}
    {elements : List Meaning} (h : ∀ element ∈ elements, (step element).Keeps I J) :
    (collect step elements).Keeps I fun items => ∀ item ∈ items, J item := by
  induction elements with
  | nil => exact .pure nofun
  | cons element rest ih =>
    obtain ⟨helement, hrest⟩ := List.forall_mem_cons.mp h
    exact .bind helement fun _ hitem => .bind (ih hrest) fun _ hitems =>
      .pure (List.forall_mem_cons.mpr ⟨hitem, hitems⟩)

/-- An object keeps kinds if its members do. -/
theorem keeps_object (stable : Stable V J) {members : List (String × Meaning)}
    (h : ∀ member ∈ members, member.2.Keeps V J) : (object members).Keeps V J := by
  have hvalue : (objectValue members).Keeps (Frame.All V) V :=
    .bind (Eval.keeps_onEnvironment (keeps_buildMembers stable h _ stable.object_nil))
      fun json hjson => .pure (stable.ofJson json hjson)
  exact ⟨fun _ _ => hvalue, fun _ _ => keeps_emitting hvalue,
    fun scope _ _ => keeps_buildMembers stable h scope stable.object_nil⟩

/-- An array keeps kinds if its elements do. -/
theorem keeps_array (stable : Stable V J) {elements : List Meaning}
    (h : ∀ element ∈ elements, element.Keeps V J) : (array elements).Keeps V J := by
  have hvalue (this : This) (hthis : This.All J this) :
      (arrayValue elements this).Keeps (Frame.All V) V := by
    refine .bind (keeps_collect (J := J) fun element helement => ?_) fun items hitems => ?_
    · exact .bind ((h element helement).evaluate this hthis) fun _ hvalue =>
        keeps_jsonOf stable hvalue
    · exact .pure (stable.ofJson (.array items) (stable.array items hitems))
  refine ⟨hvalue, fun this hthis => keeps_emitting (hvalue this hthis), fun scope _ _ => ?_⟩
  exact .bind (keeps_collect fun element helement =>
      (h element helement).build scope none This.all_none)
    fun items hitems => .pure (stable.array items hitems)

/-- An assignment keeps kinds if its value does. -/
theorem keeps_assign (stable : Stable V J) (name : String) {value : Meaning}
    (h : value.Keeps V J) : (assign name value).Keeps V J :=
  keeps_ofStatement stable fun this hthis =>
    .bind (h.evaluate this hthis) fun _ hvalue =>
    .bind (Eval.keeps_define name hvalue) fun _ _ => .pure trivial

/-- Returning keeps kinds if the value does. -/
theorem keeps_returning (stable : Stable V J) {value : Meaning} (h : value.Keeps V J) :
    (returning value).Keeps V J :=
  keeps_ofStatement stable fun this hthis =>
    .bind (h.evaluate this hthis) fun _ hvalue => .pure hvalue

/-- Leaving a loop keeps kinds. -/
theorem keeps_leave (stable : Stable V J) (flow : Flow) (h : flow.All V) (outside : EvalError) :
    (leave flow outside).Keeps V J := by
  refine keeps_ofStatement stable fun _ _ => .bind .get fun frame _ => ?_
  split
  · exact .pure h
  · exact .throw _

/-- Statements in a row keep kinds if each of them does. -/
theorem keeps_sequence {statements : List Meaning}
    (h : ∀ statement ∈ statements, statement.Keeps V J) (this : This)
    (hthis : This.All J this) : (sequence this statements).Keeps (Frame.All V) (Flow.All V) := by
  induction statements with
  | nil => exact .pure trivial
  | cons statement rest ih =>
    obtain ⟨hstatement, hrest⟩ := List.forall_mem_cons.mp h
    refine .bind (hstatement.execute this hthis) fun flow hflow => ?_
    cases flow with
    | proceed => exact ih hrest
    | _ => exact .pure hflow

/-- The value of an output is of the kind of what has been put out. -/
theorem outputValue_of_all (stable : Stable V J) {values : List Value}
    (h : ∀ value ∈ values, V value) : V (outputValue values) := by
  match values with
  | [] => exact stable.null
  | [value] => exact h value List.mem_cons_self
  | _ :: _ :: _ => exact stable.text _

/-- A call of a block keeps kinds if its statements do. -/
theorem keeps_callBlock (stable : Stable V J) {statements : List Meaning}
    (h : ∀ statement ∈ statements, statement.Keeps V J) (this : This)
    (hthis : This.All J this) : (callBlock statements this).Keeps (Environment.All V) V := by
  refine Build.keeps_inFrame (.bind (keeps_sequence h this hthis) fun flow hflow => ?_)
  cases flow with
  | proceed =>
    refine .bind .get fun frame hframe => .pure (outputValue_of_all stable fun value hvalue => ?_)
    exact hframe.output value (Array.mem_toList_iff.mp hvalue)
  | return_ value => exact .pure hflow
  | break_ => exact .throw _
  | continue_ => exact .throw _

/-- A block keeps kinds if its statements do. -/
theorem keeps_block (stable : Stable V J) {statements : List Meaning}
    (h : ∀ statement ∈ statements, statement.Keeps V J) : (block statements).Keeps V J where
  evaluate this hthis := Eval.keeps_onEnvironment (keeps_callBlock stable h this hthis)
  execute := keeps_sequence h
  build scope this hthis :=
    .bind (keeps_start scope) fun _ _ =>
    .bind (keeps_callBlock stable h this hthis) fun _ hvalue => keeps_jsonOf stable hvalue

/-- A choice keeps kinds if its conditions and bodies do. -/
theorem keeps_choose {cases : List (Meaning × Meaning)} {otherwise : Option Meaning}
    (hcases : ∀ case ∈ cases, case.1.Keeps V J ∧ case.2.Keeps V J)
    (hotherwise : ∀ body ∈ otherwise, body.Keeps V J) (this : This) (hthis : This.All J this) :
    (choose this otherwise cases).Keeps (Frame.All V) (Flow.All V) := by
  induction cases with
  | nil =>
    cases otherwise with
    | none => exact .pure trivial
    | some body => exact (hotherwise body rfl).execute this hthis
  | cons case rest ih =>
    obtain ⟨⟨hcondition, hbody⟩, hrest⟩ := List.forall_mem_cons.mp hcases
    refine .bind (hcondition.evaluate this hthis) fun value _ => ?_
    split
    · exact hbody.execute this hthis
    · exact ih hrest

/-- A loop `while` keeps kinds in all its rounds. -/
theorem keeps_whileLoop {condition : Eval Value} {body : Eval Flow}
    (hcondition : condition.Keeps (Frame.All V) V)
    (hbody : body.Keeps (Frame.All V) (Flow.All V)) (rounds : Nat) :
    (whileLoop condition body rounds).Keeps (Frame.All V) (Flow.All V) := by
  induction rounds with
  | zero => exact .unfinished
  | succ rounds ih =>
    refine .bind hcondition fun value _ => ?_
    split
    · refine .bind hbody fun flow hflow => ?_
      cases flow with
      | proceed | continue_ => exact ih
      | break_ => exact .pure trivial
      | return_ value => exact .pure hflow
    · exact .pure trivial

/-- A loop that counts keeps kinds in all its rounds. -/
theorem keeps_countLoop (stable : Stable V J) (name : String) {body : Eval Flow}
    (h : body.Keeps (Frame.All V) (Flow.All V)) (stop step current : Int64) :
    (countLoop name body stop step current).Keeps (Frame.All V) (Flow.All V) := by
  fun_induction countLoop name body stop step current with
  | case1 current hrange ih =>
    refine .bind (Eval.keeps_define name (stable.integer current)) fun _ _ =>
      .bind h fun flow hflow => ?_
    cases flow with
    | proceed | continue_ =>
      dsimp only
      split
      · rename_i next hnext
        exact ih next hnext
      · exact .pure trivial
    | break_ => exact .pure trivial
    | return_ value => exact .pure hflow
  | case2 => exact .pure trivial

/-- A loop `while` keeps kinds if its condition and its body do. -/
theorem keeps_while (stable : Stable V J) (rounds : Nat) {condition body : Meaning}
    (hcondition : condition.Keeps V J) (hbody : body.Keeps V J) :
    (while_ rounds condition body).Keeps V J :=
  keeps_ofStatement stable fun this hthis => Eval.keeps_inLoop
    (keeps_whileLoop (hcondition.evaluate this hthis) (hbody.execute this hthis) rounds)

/-- The step of a loop is evaluated without changing the kind of anything. -/
theorem keeps_stepOf {I : Frame → Prop} {P : Value → Prop} {this : This} {step : Option Meaning}
    (h : ∀ given ∈ step, (given.evaluate this).Keeps I P) :
    (stepOf this step).Keeps I fun _ => True := by
  cases step with
  | none => exact .pure trivial
  | some given => exact .bind (h given rfl) fun _ _ => .lift (ifOk_true _)

/-- A loop that counts keeps kinds if its bounds, its step and its body do. -/
theorem keeps_for (stable : Stable V J) (name : String) {start stop : Meaning}
    {step : Option Meaning} {body : Meaning} (hstart : start.Keeps V J)
    (hstop : stop.Keeps V J) (hstep : ∀ given ∈ step, given.Keeps V J)
    (hbody : body.Keeps V J) : (for_ name start stop step body).Keeps V J := by
  refine keeps_ofStatement stable fun this hthis => Eval.keeps_inLoop <|
    .bind (hstart.evaluate this hthis) fun _ _ => .bind (.lift (ifOk_true _)) fun first _ =>
    .bind (hstop.evaluate this hthis) fun _ _ => .bind (.lift (ifOk_true _)) fun last _ =>
    .bind (keeps_stepOf fun given h => (hstep given h).evaluate this hthis) fun step _ => ?_
  split
  · exact .throw _
  · exact keeps_countLoop stable name (hbody.execute this hthis) last step first

end Meaning

namespace Node

/-- A node keeps what all operations keep if its parts do and its own double has the property. -/
theorem keeps_assemble (stable : Stable V J) (rounds : Nat) {node : Node}
    (hfloat : ∀ x, node = float x → V (.float x)) {part : Nat → Meaning}
    (hparts : ∀ i < node.parts.length, (part i).Keeps V J) :
    (node.assemble rounds part).Keeps V J := by
  cases node with
  | object members =>
    refine Meaning.keeps_object stable fun member hmember => ?_
    obtain ⟨i, hi, rfl⟩ := List.mem_mapIdx.mp hmember
    exact hparts i (by simpa [parts] using hi)
  | array elements =>
    refine Meaning.keeps_array stable fun element helement => ?_
    obtain ⟨i, hi, rfl⟩ := List.mem_mapIdx.mp helement
    exact hparts i hi
  | block statements =>
    refine Meaning.keeps_block stable fun statement hstatement => ?_
    obtain ⟨i, hi, rfl⟩ := List.mem_mapIdx.mp hstatement
    exact hparts i hi
  | string text =>
    exact Meaning.keeps_literal (stable.text text) (stable.toJson _ (stable.text text))
  | integer value =>
    exact Meaning.keeps_literal (stable.integer value) (stable.toJson _ (stable.integer value))
  | float value => exact Meaning.keeps_ofExpression stable fun _ _ => .pure (hfloat value rfl)
  | boolean value =>
    exact Meaning.keeps_literal (stable.boolean value) (stable.toJson _ (stable.boolean value))
  | null => exact Meaning.keeps_literal stable.null (stable.toJson _ stable.null)
  | lookup name => exact Meaning.keeps_lookup stable name
  | this path => exact Meaning.keeps_this stable path
  | break_ => exact Meaning.keeps_leave stable .break_ trivial _
  | continue_ => exact Meaning.keeps_leave stable .continue_ trivial _
  | assign name value => exact Meaning.keeps_assign stable name (hparts 0 Nat.zero_lt_one)
  | return_ value => exact Meaning.keeps_returning stable (hparts 0 Nat.zero_lt_one)
  | negate operand => exact Meaning.keeps_negate stable (hparts 0 Nat.zero_lt_one)
  | binary operator left right =>
    exact Meaning.keeps_binary stable operator (hparts 0 Nat.zero_lt_two) (hparts 1 Nat.one_lt_two)
  | while_ condition body =>
    exact Meaning.keeps_while stable rounds (hparts 0 Nat.zero_lt_two) (hparts 1 Nat.one_lt_two)
  | for_ name start stop step body =>
    cases step with
    | none =>
      refine Meaning.keeps_for stable name (hparts 0 (by simp [parts]))
        (hparts 1 (by simp [parts])) ?_ (hparts 2 (by simp [parts]))
      rintro _ ⟨⟩
    | some step =>
      refine Meaning.keeps_for stable name (hparts 0 (by simp [parts]))
        (hparts 1 (by simp [parts])) ?_ (hparts 3 (by simp [parts]))
      rintro _ ⟨⟩
      exact hparts 2 (by simp [parts])
  | cond cases otherwise =>
    have hlength := length_parts_cond cases otherwise
    refine Meaning.keeps_ofStatement stable (Meaning.keeps_choose ?_ ?_)
    · intro case hcase
      obtain ⟨i, hi, rfl⟩ := List.mem_mapIdx.mp hcase
      exact ⟨hparts (2 * i) (by omega), hparts (2 * i + 1) (by omega)⟩
    · cases otherwise with
      | none => rintro _ ⟨⟩
      | some body =>
        rintro _ ⟨⟩
        exact hparts (2 * cases.length) (by simp [hlength])

/-- Every tree keeps what all operations keep, if the doubles in it have the property. -/
theorem keeps_meaning (stable : Stable V J) (rounds : Nat) {node : Node}
    (hfloat : ∀ x, (float x).Occurs node → V (.float x)) : (node.meaning rounds).Keeps V J := by
  induction node using induction_parts with
  | step node ih =>
    rw [meaning_eq_assemble]
    refine keeps_assemble stable rounds (fun x hx => hfloat x (hx ▸ .here)) fun i hi => ?_
    have hmem : node.parts[i] ∈ node.parts := List.getElem_mem hi
    rw [meaningAt_of_getElem? (List.getElem?_eq_getElem hi)]
    exact ih _ hmem fun x hx => hfloat x (.inside hmem hx)

end Node

end

end JsonTemplate
