import JsonTemplate.Evaluation

/-!
# Trees without `while` come to an end

Every kind of node but `while` ends if its parts do: lists of parts are gone through once, and
a counting loop gets closer to its end in each round. So a tree without `while` ends in each of
its readings, however few rounds are allowed.
-/

namespace JsonTemplate

namespace Meaning

/-- A meaning that ends in all its readings. -/
structure Ends (meaning : Meaning) : Prop where
  evaluate : ∀ this, (meaning.evaluate this).Ends
  execute : ∀ this, (meaning.execute this).Ends
  build : ∀ scope this, (meaning.build scope this).Ends

/-- Starting to build ends. -/
theorem ends_start (scope : Scope) : (start scope).Ends := by
  cases scope
  · exact .set _
  · exact .pure _

/-- Putting a value out ends if evaluating it does. -/
theorem ends_emitting {value : Eval Value} (h : value.Ends) : (emitting value).Ends :=
  .bind h fun _ => .bind (.modify _) fun _ => .pure _

/-- Building what an expression evaluates to ends if evaluating it does. -/
theorem ends_building {evaluate : This → Eval Value} (h : ∀ this, (evaluate this).Ends)
    (scope : Scope) (this : This) : (building evaluate scope this).Ends :=
  .bind (ends_start scope) fun _ => .bind (.focus (h none)) fun _ => .lift _

/-- An expression ends in all its readings if it does as a value. -/
theorem ends_ofExpression {evaluate : This → Eval Value} (h : ∀ this, (evaluate this).Ends) :
    (ofExpression evaluate).Ends :=
  ⟨h, fun this => ends_emitting (h this), ends_building h⟩

/-- The value of a statement is there if the statement ends. -/
theorem ends_valueOf {statement : Eval Flow} (h : statement.Ends) : (valueOf statement).Ends :=
  .bind h fun flow => by cases flow <;> exact .pure _

/-- A statement ends in all its readings if its execution does. -/
theorem ends_ofStatement {execute : This → Eval Flow} (h : ∀ this, (execute this).Ends) :
    (ofStatement execute).Ends :=
  ⟨fun this => ends_valueOf (h this), h, ends_building fun this => ends_valueOf (h this)⟩

/-- A literal ends. -/
theorem ends_literal (value : Value) (json : Json) : (literal value json).Ends :=
  ⟨fun _ => .pure _, fun _ => ends_emitting (.pure _), fun _ _ => .pure _⟩

/-- Looking up a name ends. -/
theorem ends_lookup (name : String) : (lookup name).Ends :=
  ends_ofExpression fun _ => .bind .get fun frame => by
    split
    · exact .pure _
    · exact .throw _

/-- An operation ends if its operands do. -/
theorem ends_binary {operator : Operator} {left right : Meaning} (hl : left.Ends)
    (hr : right.Ends) : (binary operator left right).Ends :=
  ends_ofExpression fun this =>
    .bind (hl.evaluate this) fun _ => .bind (hr.evaluate this) fun _ => .lift _

/-- A change of sign ends if its operand does. -/
theorem ends_negate {operand : Meaning} (h : operand.Ends) : (negate operand).Ends :=
  ends_ofExpression fun this => .bind (h.evaluate this) fun _ => .lift _

/-- A path ends. -/
theorem ends_this (path : List Accessor) : (this path).Ends :=
  ends_ofExpression fun this => by
    unfold resolve
    split
    · exact .throw _
    · split
      · exact .pure _
      · exact .throw _

/-- Building members ends if each of them does. -/
theorem ends_buildMembers {members : List (String × Meaning)}
    (h : ∀ member ∈ members, member.2.Ends) (scope : Scope) (sofar : List (String × Json)) :
    (buildMembers scope sofar members).Ends := by
  induction members generalizing sofar with
  | nil => exact .pure _
  | cons member rest ih =>
    exact .bind ((h member List.mem_cons_self).build _ _) fun _ =>
      ih (fun other hother => h other (List.mem_cons_of_mem _ hother)) _

/-- Collecting items ends if each step does. -/
theorem ends_collect {σ : Type} {step : Meaning → Run σ Json} {elements : List Meaning}
    (h : ∀ element ∈ elements, (step element).Ends) : (collect step elements).Ends := by
  induction elements with
  | nil => exact .pure _
  | cons element rest ih =>
    exact .bind (h element List.mem_cons_self) fun _ =>
      .bind (ih fun other hother => h other (List.mem_cons_of_mem _ hother)) fun _ => .pure _

/-- An object ends if its members do. -/
theorem ends_object {members : List (String × Meaning)}
    (h : ∀ member ∈ members, member.2.Ends) : (object members).Ends :=
  have value : (objectValue members).Ends :=
    .bind (.focus (ends_buildMembers h _ _)) fun _ => .pure _
  ⟨fun _ => value, fun _ => ends_emitting value, fun _ _ => ends_buildMembers h _ _⟩

/-- An array ends if its elements do. -/
theorem ends_array {elements : List Meaning} (h : ∀ element ∈ elements, element.Ends) :
    (array elements).Ends :=
  have value (this : This) : (arrayValue elements this).Ends :=
    .bind (ends_collect fun element helement =>
      .bind ((h element helement).evaluate this) fun _ => .lift _) fun _ => .pure _
  ⟨value, fun this => ends_emitting (value this), fun scope _ =>
    .bind (ends_collect fun element helement => (h element helement).build scope none)
      fun _ => .pure _⟩

/-- An assignment ends if its value does. -/
theorem ends_assign {name : String} {value : Meaning} (h : value.Ends) :
    (assign name value).Ends :=
  ends_ofStatement fun this =>
    .bind (h.evaluate this) fun _ => .bind (.modify _) fun _ => .pure _

/-- Returning ends if the value does. -/
theorem ends_returning {value : Meaning} (h : value.Ends) : (returning value).Ends :=
  ends_ofStatement fun this => .bind (h.evaluate this) fun _ => .pure _

/-- Leaving a loop ends. -/
theorem ends_leave (flow : Flow) (outside : EvalError) : (leave flow outside).Ends :=
  ends_ofStatement fun _ => .bind .get fun frame => by
    split
    · exact .pure _
    · exact .throw _

/-- Statements in a row end if each of them does. -/
theorem ends_sequence {statements : List Meaning}
    (h : ∀ statement ∈ statements, statement.Ends) (this : This) :
    (sequence this statements).Ends := by
  induction statements with
  | nil => exact .pure _
  | cons statement rest ih =>
    refine .bind ((h statement List.mem_cons_self).execute this) fun flow => ?_
    cases flow with
    | proceed => exact ih fun other hother => h other (List.mem_cons_of_mem _ hother)
    | _ => exact .pure _

/-- A call of a block ends if its statements do. -/
theorem ends_callBlock {statements : List Meaning}
    (h : ∀ statement ∈ statements, statement.Ends) (this : This) :
    (callBlock statements this).Ends := by
  unfold callBlock Build.inFrame
  refine .focus (.bind (ends_sequence h this) fun flow => ?_)
  cases flow with
  | proceed => exact .bind .get fun _ => .pure _
  | return_ value => exact .pure _
  | break_ => exact .throw _
  | continue_ => exact .throw _

/-- A block ends if its statements do. -/
theorem ends_block {statements : List Meaning}
    (h : ∀ statement ∈ statements, statement.Ends) : (block statements).Ends :=
  have value (this : This) : (Eval.onEnvironment (callBlock statements this)).Ends :=
    .focus (ends_callBlock h this)
  ⟨value, ends_sequence h, fun scope this =>
    .bind (ends_start scope) fun _ => .bind (ends_callBlock h this) fun _ => .lift _⟩

/-- A choice ends if its conditions and bodies do. -/
theorem ends_choose {cases : List (Meaning × Meaning)} {otherwise : Option Meaning}
    (hc : ∀ case ∈ cases, case.1.Ends ∧ case.2.Ends)
    (ho : ∀ body ∈ otherwise, body.Ends) (this : This) :
    (choose this otherwise cases).Ends := by
  induction cases with
  | nil =>
    cases otherwise with
    | none => exact .pure _
    | some body => exact (ho body rfl).execute this
  | cons case rest ih =>
    obtain ⟨hcondition, hbody⟩ := hc case List.mem_cons_self
    refine .bind (hcondition.evaluate this) fun value => ?_
    split
    · exact hbody.execute this
    · exact ih fun other hother => hc other (List.mem_cons_of_mem _ hother)

/-- A loop that counts ends if its body does, since each round brings it nearer to its end. -/
theorem ends_countLoop {name : String} {body : Eval Flow} (h : body.Ends)
    (stop step current : Int64) : (countLoop name body stop step current).Ends := by
  fun_induction countLoop name body stop step current with
  | case1 current hrange ih =>
    refine .bind (.modify _) fun _ => .bind h fun flow => ?_
    cases flow with
    | proceed | continue_ =>
      dsimp only
      split
      · rename_i next hnext
        exact ih next hnext
      · exact .pure _
    | _ => exact .pure _
  | case2 => exact .pure _

/-- A loop that counts ends if its bounds, its step and its body do. -/
theorem ends_for {name : String} {start stop : Meaning} {step : Option Meaning}
    {body : Meaning} (hstart : start.Ends) (hstop : stop.Ends)
    (hstep : ∀ given ∈ step, given.Ends) (hbody : body.Ends) :
    (for_ name start stop step body).Ends :=
  ends_ofStatement fun this => .focus <|
    .bind (hstart.evaluate this) fun _ => .bind (.lift _) fun _ =>
    .bind (hstop.evaluate this) fun _ => .bind (.lift _) fun _ =>
    .bind (by
      cases step with
      | none => exact .pure _
      | some given => exact .bind ((hstep given rfl).evaluate this) fun _ => .lift _)
    fun _ => by
      split
      · exact .throw _
      · exact ends_countLoop (hbody.execute this) _ _ _

end Meaning

namespace Node

mutual

/-- A tree without `while` ends in each of its readings. -/
theorem ends_meaning (rounds : Nat) : (node : Node) → node.whileFree → (node.meaning rounds).Ends
  | object members, h => Meaning.ends_object (ends_memberMeanings rounds members h)
  | array elements, h => Meaning.ends_array (ends_meanings rounds elements h)
  | string _, _ => Meaning.ends_literal _ _
  | integer _, _ => Meaning.ends_literal _ _
  | float _, _ => Meaning.ends_ofExpression fun _ => .pure _
  | boolean _, _ => Meaning.ends_literal _ _
  | null, _ => Meaning.ends_literal _ _
  | lookup name, _ => Meaning.ends_lookup name
  | assign _ value, h => Meaning.ends_assign (ends_meaning rounds value h)
  | binary _ left right, h => by
    simp only [whileFree, Bool.and_eq_true] at h
    exact Meaning.ends_binary (ends_meaning rounds left h.1) (ends_meaning rounds right h.2)
  | negate operand, h => Meaning.ends_negate (ends_meaning rounds operand h)
  | this path, _ => Meaning.ends_this path
  | block statements, h => Meaning.ends_block (ends_meanings rounds statements h)
  | return_ value, h => Meaning.ends_returning (ends_meaning rounds value h)
  | cond cases otherwise, h => by
    simp only [whileFree, Bool.and_eq_true] at h
    exact Meaning.ends_ofStatement
      (Meaning.ends_choose (ends_caseMeanings rounds cases h.1)
        (ends_optionMeaning rounds otherwise h.2))
  | while_ _ _, h => absurd h Bool.false_ne_true
  | for_ _ start stop step body, h => by
    simp only [whileFree, Bool.and_eq_true] at h
    exact Meaning.ends_for (ends_meaning rounds start h.1.1.1)
      (ends_meaning rounds stop h.1.1.2) (ends_optionMeaning rounds step h.1.2)
      (ends_meaning rounds body h.2)
  | break_, _ => Meaning.ends_leave _ _
  | continue_, _ => Meaning.ends_leave _ _

/-- The meanings of nodes without `while` end. -/
theorem ends_meanings (rounds : Nat) : (nodes : List Node) → allWhileFree nodes →
    ∀ meaning ∈ meanings rounds nodes, meaning.Ends
  | [], _ => by simp [meanings]
  | node :: rest, h => by
    simp only [allWhileFree, Bool.and_eq_true] at h
    simp only [meanings, List.mem_cons, forall_eq_or_imp]
    exact ⟨ends_meaning rounds node h.1, ends_meanings rounds rest h.2⟩

/-- The meanings of members without `while` end. -/
theorem ends_memberMeanings (rounds : Nat) : (members : List (String × Node)) →
    membersWhileFree members → ∀ member ∈ memberMeanings rounds members, member.2.Ends
  | [], _ => by simp [memberMeanings]
  | (_, node) :: rest, h => by
    simp only [membersWhileFree, Bool.and_eq_true] at h
    simp only [memberMeanings, List.mem_cons, forall_eq_or_imp]
    exact ⟨ends_meaning rounds node h.1, ends_memberMeanings rounds rest h.2⟩

/-- The meanings of cases without `while` end. -/
theorem ends_caseMeanings (rounds : Nat) : (cases : List (Node × Node)) →
    casesWhileFree cases →
    ∀ case ∈ caseMeanings rounds cases, case.1.Ends ∧ case.2.Ends
  | [], _ => by simp [caseMeanings]
  | (condition, body) :: rest, h => by
    simp only [casesWhileFree, Bool.and_eq_true] at h
    simp only [caseMeanings, List.mem_cons, forall_eq_or_imp]
    exact ⟨⟨ends_meaning rounds condition h.1.1, ends_meaning rounds body h.1.2⟩,
      ends_caseMeanings rounds rest h.2⟩

/-- The meaning of a node without `while` ends, if there is one. -/
theorem ends_optionMeaning (rounds : Nat) : (node : Option Node) → optionWhileFree node →
    ∀ meaning ∈ optionMeaning rounds node, meaning.Ends
  | none, _ => by simp [optionMeaning]
  | some node, h => by
    simp only [optionMeaning, Option.mem_some, forall_eq']
    exact ends_meaning rounds node h

end

end Node

namespace Interpreter

/-- A document without `while` is always built or refused. -/
theorem isSome_build (interpreter : Interpreter) (rounds : Nat) {document : Node}
    (h : document.whileFree) : (interpreter.build rounds document).isSome := by
  have := (document.ends_meaning rounds h).build .root none interpreter.environment
  simpa [build] using this

end Interpreter

end JsonTemplate
