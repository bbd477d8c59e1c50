import JsonTemplate.Proofs.Evaluation.Readings
import Mathlib.Data.List.ReduceOption

/-!
# Isolation at the root of a document

Every block and every expression at the root of a document starts without bindings, and nothing
else at the root looks at them. So what a part at the root is built as does not depend on the
bindings that are there when its turn comes: it is what the part is built as alone. An array or an
object of the root is put together from the parts built alone, whatever they bind, and an
interpreter builds each document as a new one would, whatever it has built before and whether or
not that has failed.
-/

namespace JsonTemplate

namespace Run

variable {σ α β : Type}

/-- A computation with the same end, a result or an error, from every state; or without an end. -/
def EndsAs (run : Run σ α) (outcome : ExceptT EvalError Option α) : Prop :=
  ∀ state, (run state).map (·.1) = outcome

namespace EndsAs

/-- Giving a result ends as that result. -/
protected theorem pure (result : α) : (pure result : Run σ α).EndsAs (pure result) := fun _ => rfl

/-- Computations in a row end as the ends of them in a row. -/
protected theorem bind {run : Run σ α} {next : α → Run σ β} {first : ExceptT EvalError Option α}
    {rest : α → ExceptT EvalError Option β} (hrun : run.EndsAs first)
    (hnext : ∀ result, (next result).EndsAs (rest result)) :
    (run >>= next).EndsAs (first >>= rest) := by
  intro state
  rw [bind_apply, ← hrun state]
  cases run state with
  | none => rfl
  | some outcome =>
    obtain ⟨result, after⟩ := outcome
    cases result with
    | ok value => exact hnext value after
    | error error => rfl

/-- From any state the end is the one from a given state. -/
protected theorem at_state {run : Run σ α} {outcome : ExceptT EvalError Option α}
    (h : run.EndsAs outcome) (state : σ) : run.EndsAs ((run state).map (·.1)) :=
  fun other => (h other).trans (h state).symm

end EndsAs

end Run

/-- What a node is built as at the root of a document when nothing is bound. -/
def Node.alone (rounds : Nat) (this : This) (node : Node) : ExceptT EvalError Option Json :=
  ((node.meaning rounds).build .root this .empty).map (·.1)

namespace Meaning

/-- Elements built at the root end as each of them does alone. -/
theorem endsAs_collect {rounds : Nat} {elements : List Node}
    (h : ∀ element ∈ elements, ((element.meaning rounds).build .root none).EndsAs
      (element.alone rounds none)) :
    (collect (·.build .root none) (Node.meanings rounds elements)).EndsAs
      (elements.mapM fun element => element.alone rounds none) := by
  induction elements with
  | nil => exact .pure []
  | cons element rest ih =>
    obtain ⟨helement, hrest⟩ := List.forall_mem_cons.mp h
    rw [List.mapM_cons]
    exact .bind helement fun item => .bind (ih hrest) fun items => .pure (item :: items)

/-- Members built at the root end as each of them does alone, with the members before it. -/
theorem endsAs_buildMembers {rounds : Nat} {members : List (String × Node)}
    (h : ∀ member ∈ members, ∀ this, ((member.2.meaning rounds).build .root this).EndsAs
      (member.2.alone rounds this)) (sofar : List (String × Json)) :
    (buildMembers .root sofar (Node.memberMeanings rounds members)).EndsAs (do
      let members ← members.foldlM (fun sofar (name, node) => do
        return Json.insertMember name (← node.alone rounds (some sofar)) sofar) sofar
      return .object members) := by
  induction members generalizing sofar with
  | nil => exact .pure (Json.object sofar)
  | cons member rest ih =>
    obtain ⟨hmember, hrest⟩ := List.forall_mem_cons.mp h
    obtain ⟨name, node⟩ := member
    simp only [List.foldlM_cons, bind_assoc, pure_bind]
    exact .bind (hmember (some sofar)) fun value => ih hrest _

end Meaning

namespace Node

/-- An array at the root ends as its elements do alone. -/
theorem endsAs_array {rounds : Nat} {elements : List Node}
    (h : ∀ element ∈ elements, ((element.meaning rounds).build .root none).EndsAs
      (element.alone rounds none)) (this : This) :
    (((array elements).meaning rounds).build .root this).EndsAs (do
      return .array (← elements.mapM fun element => element.alone rounds none)) := by
  rw [meaning]
  exact .bind (Meaning.endsAs_collect h) fun items => .pure (Json.array items)

/-- An object at the root ends as its members do alone. -/
theorem endsAs_object {rounds : Nat} {members : List (String × Node)}
    (h : ∀ member ∈ members, ∀ this, ((member.2.meaning rounds).build .root this).EndsAs
      (member.2.alone rounds this)) (this : This) :
    (((object members).meaning rounds).build .root this).EndsAs (do
      let members ← members.foldlM (fun sofar (name, node) => do
        return Json.insertMember name (← node.alone rounds (some sofar)) sofar) []
      return .object members) := by
  rw [meaning]
  exact Meaning.endsAs_buildMembers h []

/-- At the root a node is built as it is alone, whatever is bound. -/
theorem endsAs_alone (rounds : Nat) (node : Node) (this : This) :
    ((node.meaning rounds).build .root this).EndsAs (node.alone rounds this) := by
  induction node using induction_parts generalizing this with
  | step node ih =>
    cases node with
    | object members =>
      exact (endsAs_object (fun member hmember => ih _ (List.mem_map_of_mem hmember)) this).at_state
        .empty
    | array elements =>
      exact (endsAs_array (fun element helement => ih element helement none) this).at_state .empty
    -- A literal does not look at the bindings, and all others start by forgetting them.
    | _ => exact fun _ => rfl

/-- An array alone consists of its elements alone. -/
theorem alone_array (rounds : Nat) (this : This) (elements : List Node) :
    (array elements).alone rounds this =
      (do return .array (← elements.mapM fun element => element.alone rounds none)) :=
  endsAs_array (fun element _ => element.endsAs_alone rounds none) this .empty

/-- An object alone consists of its members alone, each with those before it. -/
theorem alone_object (rounds : Nat) (this : This) (members : List (String × Node)) :
    (object members).alone rounds this = (do
      let members ← members.foldlM (fun sofar (name, node) => do
        return Json.insertMember name (← node.alone rounds (some sofar)) sofar) []
      return .object members) :=
  endsAs_object (fun member _ => member.2.endsAs_alone rounds) this .empty

end Node

namespace Interpreter

/-- The results of documents that an interpreter builds one after the other, whether they fail or
not, up to the first one that does not come to an end. -/
def results (rounds : Nat) (interpreter : Interpreter) :
    List Node → List (Except EvalError Json)
  | [] => []
  | document :: rest =>
    match interpreter.build rounds document with
    | some (result, next) => result :: next.results rounds rest
    | none => []

/-- Every interpreter gives a document the result that it has alone. -/
theorem result_eq_alone (rounds : Nat) (interpreter : Interpreter) (document : Node) :
    interpreter.result rounds document = document.alone rounds none := by
  rw [result_eq, document.endsAs_alone rounds none interpreter.environment]

end Interpreter

/-- Documents and the parts of their roots are isolated from each other. Documents that one
interpreter builds in turn, some of which may fail, have the results that new interpreters give
each of them; a node at the root is built alike whatever is bound; and so the elements of an array
at the root, and the members of an object there, are built as they are from no bindings at all,
a member with those before it. -/
theorem build_isolated (rounds : Nat) :
    (∀ (interpreter : Interpreter) (documents : List Node),
      interpreter.results rounds documents =
        ((documents.map (Interpreter.new.result rounds)).takeWhile (·.isSome)).reduceOption) ∧
    (∀ (node : Node) (this : This) (environment other : Environment),
      ((node.meaning rounds).build .root this environment).map (·.1) =
        ((node.meaning rounds).build .root this other).map (·.1)) ∧
    (∀ (elements : List Node) (this : This) (environment : Environment),
      (((Node.array elements).meaning rounds).build .root this environment).map (·.1) =
        ((do return .array (← elements.mapM fun element => element.alone rounds none)) :
          ExceptT EvalError Option Json)) ∧
    ∀ (members : List (String × Node)) (this : This) (environment : Environment),
      (((Node.object members).meaning rounds).build .root this environment).map (·.1) =
        ((do
          let members ← members.foldlM (fun sofar (name, node) => do
            return Json.insertMember name (← node.alone rounds (some sofar)) sofar) []
          return .object members) : ExceptT EvalError Option Json) := by
  refine ⟨fun interpreter documents => ?_, fun node this environment other => ?_,
    fun elements this environment => ?_, fun members this environment => ?_⟩
  · induction documents generalizing interpreter with
    | nil => rfl
    | cons document rest ih =>
      have hresult : Interpreter.new.result rounds document = interpreter.result rounds document :=
        by rw [Interpreter.result_eq_alone, Interpreter.result_eq_alone]
      rw [Interpreter.results, List.map_cons, hresult, Interpreter.result]
      cases interpreter.build rounds document with
      | none => rfl
      | some outcome =>
        rw [Option.map_some, List.takeWhile_cons_of_pos rfl, List.reduceOption_cons_of_some, ← ih]
  · rw [node.endsAs_alone rounds this environment, node.endsAs_alone rounds this other]
  · rw [← Node.alone_array rounds this]
    exact (Node.array elements).endsAs_alone rounds this environment
  · rw [← Node.alone_object rounds this]
    exact (Node.object members).endsAs_alone rounds this environment

end JsonTemplate
