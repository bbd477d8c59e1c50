import JsonTemplate.Proofs.Evaluation.Alike
import JsonTemplate.Proofs.Node.Places
import Mathlib.Logic.Function.Basic

/-!
# The readings that a reading reaches

No construct recovers from an error. So where a reading goes can be seen from outside: the reading
of a node calls the reading of a part from a state if the whole fails whenever that one reading of
the part fails, with the same error. What is not called in this sense makes no difference at all.
A reading reaches what it calls in a part, what that calls in turn, and so on down the tree.

An object literal calls the value of a pair with the members that the pairs before it have left, and
from the bindings that they have left. Errors travel up along the calls.
-/

namespace JsonTemplate

namespace Run

variable {σ α β : Type} {run : Run σ α} {next : α → Run σ β} {state middle after : σ}

/-- A computation goes on after a result. -/
theorem bind_of_ok {result : α} (h : run state = some (.ok result, middle)) :
    (run >>= next) state = next result middle := by
  rw [bind_apply, h]
  rfl

/-- A computation stops at an error. -/
theorem bind_of_error {error : EvalError} (h : run state = some (.error error, after)) :
    (run >>= next) state = some (.error error, after) := by
  rw [bind_apply, h]
  rfl

/-- What has a result has one in both of its steps. -/
theorem exists_of_bind {result : β} (h : (run >>= next) state = some (.ok result, after)) :
    ∃ first middle, run state = some (.ok first, middle) ∧
      next first middle = some (.ok result, after) := by
  rw [bind_apply] at h
  obtain ⟨⟨first, middle⟩, hrun, hnext⟩ := Option.bind_eq_some_iff.mp h
  cases first with
  | ok first => exact ⟨first, middle, hrun, hnext⟩
  | error error => nomatch hnext

end Run

/-- One reading of a node: a mode, and the state that the reading starts from. -/
structure Task where
  mode : Mode
  state : mode.State

/-- The bindings that a reading starts from. -/
def Task.environment (task : Task) : Environment := task.mode.environment task.state

namespace Meaning

/-- The outcome of one reading. -/
def perform (meaning : Meaning) (task : Task) :
    Option (Except EvalError task.mode.Result × task.mode.State) :=
  meaning.read task.mode task.state

/-- A reading ends with an error. -/
def FailsWith (meaning : Meaning) (task : Task) (error : EvalError) : Prop :=
  ∃ after, meaning.perform task = some (.error error, after)

/-- A reading fails with one error at most. -/
theorem FailsWith.unique {meaning : Meaning} {task : Task} {error other : EvalError}
    (h : meaning.FailsWith task error) (hother : meaning.FailsWith task other) : error = other := by
  obtain ⟨after, h⟩ := h
  obtain ⟨after', hother⟩ := hother
  rw [h] at hother
  injections

/-- A meaning that is another one but for a single reading, which fails. -/
structure Fault (meaning faulty : Meaning) (task : Task) (error : EvalError) : Prop where
  fails : faulty.FailsWith task error
  perform_eq : ∀ other, other ≠ task → faulty.perform other = meaning.perform other

open Classical in
/-- The meaning that is another one but for a single reading, which fails at once. -/
noncomputable def failingAt (meaning : Meaning) (task : Task) (error : EvalError) : Meaning where
  evaluate this frame :=
    if (⟨.evaluate this, frame⟩ : Task) = task then some (.error error, frame)
    else meaning.evaluate this frame
  execute this frame :=
    if (⟨.execute this, frame⟩ : Task) = task then some (.error error, frame)
    else meaning.execute this frame
  build scope this environment :=
    if (⟨.build scope this, environment⟩ : Task) = task then some (.error error, environment)
    else meaning.build scope this environment

/-- A meaning that is made to fail in one reading differs in that reading only. -/
theorem fault_failingAt (meaning : Meaning) (task : Task) (error : EvalError) :
    meaning.Fault (meaning.failingAt task error) task error where
  fails := by
    obtain ⟨mode, state⟩ := task
    cases mode <;> exact ⟨_, if_pos rfl⟩
  perform_eq other hne := by
    obtain ⟨mode, state⟩ := other
    cases mode <;> exact if_neg hne

end Meaning

namespace Node

/-- The meaning of a node with the meaning of one part exchanged. -/
def withPart (rounds : Nat) (node : Node) (i : Nat) (part : Meaning) : Meaning :=
  node.assemble rounds (Function.update (meaningAt rounds node.parts) i part)

/-- A node with its own part put in is itself. -/
theorem withPart_self (rounds : Nat) (node : Node) (i : Nat) :
    node.withPart rounds i (meaningAt rounds node.parts i) = node.meaning rounds := by
  rw [withPart, Function.update_eq_self, ← meaning_eq_assemble]

/-- Exchanging one of the meanings that a list is put together from exchanges one item. -/
theorem mapIdx_update {α β : Type} {list : List α} {i : Nat} {a : α} (h : list[i]? = some a)
    (f : α → Meaning → β) (part : Nat → Meaning) (meaning : Meaning) :
    (list.mapIdx fun j a => f a (Function.update part i meaning j)) =
      (list.mapIdx fun j a => f a (part j)).set i (f a meaning) := by
  obtain ⟨hi, rfl⟩ := List.getElem?_eq_some_iff.mp h
  apply List.ext_getElem
  · rw [List.length_set, List.length_mapIdx, List.length_mapIdx]
  · intro j _ _
    rw [List.getElem_mapIdx, List.getElem_set, List.getElem_mapIdx]
    by_cases hij : i = j
    · obtain rfl := hij
      rw [Function.update_self, if_pos rfl]
    · rw [Function.update_of_ne (Ne.symm hij), if_neg hij]

/-- The reading of a node calls the reading of a part: the node fails whenever that one reading of
the part fails, with the same error. -/
def Calls (rounds : Nat) (node : Node) (task : Task) (i : Nat) (called : Task) : Prop :=
  ∀ error faulty, (meaningAt rounds node.parts i).Fault faulty called error →
    (node.withPart rounds i faulty).FailsWith task error

variable {rounds : Nat} {node part : Node} {task called : Task} {i : Nat} {error : EvalError}

/-- The error of a part that is called is the error of the node. -/
theorem Calls.failsWith (h : node.Calls rounds task i called) (hpart : node.parts[i]? = some part)
    (hfails : (part.meaning rounds).FailsWith called error) :
    (node.meaning rounds).FailsWith task error := by
  rw [← withPart_self rounds node i]
  refine h error _ ⟨?_, fun _ _ => rfl⟩
  rwa [meaningAt_of_getElem? hpart]

/-- Nothing is called if its failing makes no difference. -/
theorem not_calls (h : ∀ error faulty, (meaningAt rounds node.parts i).Fault faulty called error →
    (node.withPart rounds i faulty).perform task = (node.meaning rounds).perform task) :
    ¬ node.Calls rounds task i called := by
  intro hcalls
  have hfails (error : EvalError) : (node.meaning rounds).FailsWith task error := by
    have hfault := Meaning.fault_failingAt (meaningAt rounds node.parts i) called error
    obtain ⟨after, hafter⟩ := hcalls error _ hfault
    exact ⟨after, (h error _ hfault).symm.trans hafter⟩
  exact EvalError.noConfusion ((hfails .divisionByZero).unique (hfails .zeroStep))

/-- What holds of the errors that each node adds, under a condition that passes on to the parts that
are read, holds of the errors of the whole. -/
theorem error_of_failsWith {E : EvalError → Prop} {F : Flow → Prop} {C : Node → Mode → Prop}
    (hoperation : ∀ error, error.IsOperation → E error) (hproceed : F .proceed)
    (hreturn : ∀ value, F (.return_ value))
    (hpermits : ∀ node mode, C node mode → node.Permits E F mode)
    (hpart : ∀ node mode, C node mode → ∀ part ∈ node.parts, ∀ used, node.Uses mode used →
      C part used) (h : C node task.mode) (hfails : (node.meaning rounds).FailsWith task error) :
    E error := by
  obtain ⟨after, hafter⟩ := hfails
  have halike := node.alikeIn_meaning (D := fun _ => False)
    (simulation_eq hoperation hproceed hreturn) bindsAlike_eq hpermits hpart rounds h
  have hends := halike task.state task.state (Mode.alike_eq_iff.mpr rfl)
  rw [Meaning.perform] at hafter
  rw [hafter] at hends
  cases hends with
  | ended hadmits _ => exact hadmits
  | diverted herror => exact herror.elim

/-- Meanings of a part that are read alike in all modes that are used, where the first is not
diverted, give the node one outcome, unless the first diverts it. -/
theorem withPart_diverted_or_eq (node : Node) (task : Task) (i : Nat) (D : EvalError → Prop)
    {first second : Meaning}
    (h : ∀ used, node.Uses task.mode used → ∀ state,
      (∃ error after, D error ∧ first.read used state = some (.error error, after)) ∨
        first.read used state = second.read used state) :
    (∃ error after, D error ∧
        (node.withPart rounds i first).perform task = some (.error error, after)) ∨
      (node.withPart rounds i first).perform task =
        (node.withPart rounds i second).perform task := by
  have halike : Meaning.AlikeIn Eq D (fun _ => True) (fun _ => True) task.mode
      (node.withPart rounds i first) (node.withPart rounds i second) := by
    refine alikeIn_assemble (simulation_eq (fun _ _ => trivial) trivial fun _ => trivial)
      (fun _ => bindsAlike_eq) (node.permits_true task.mode) rounds fun j _ used hused => ?_
    refine Meaning.alikeIn_eq fun state => ?_
    by_cases hj : j = i
    · obtain rfl := hj
      rw [Function.update_self, Function.update_self]
      exact h used hused state
    · rw [Function.update_of_ne hj, Function.update_of_ne hj]
      exact Or.inr rfl
  exact halike.diverted_or_eq task.state

/-- Parts are called only in the modes that are used. -/
theorem Calls.uses (h : node.Calls rounds task i called) : node.Uses task.mode called.mode := by
  by_contra hunused
  refine not_calls (fun error faulty hfault => ?_) h
  rw [← withPart_self rounds node i]
  have hread (used : Mode) (hused : node.Uses task.mode used) (state : used.State) :
      faulty.read used state = (meaningAt rounds node.parts i).read used state :=
    hfault.perform_eq ⟨used, state⟩ fun heq => hunused (heq ▸ hused)
  rcases withPart_diverted_or_eq node task i (fun _ => False) fun used hused state =>
    Or.inr (hread used hused state) with ⟨_, _, herror, -⟩ | heq
  · exact herror.elim
  · exact heq

/-- A reading of a part is called, or it makes no difference: the part can be exchanged for any
other meaning that differs in this one reading. -/
theorem calls_or_perform_eq (rounds : Nat) (node : Node) (task : Task) (i : Nat) (called : Task) :
    node.Calls rounds task i called ∨
      ∀ other : Meaning,
        (∀ task ≠ called, other.perform task = (meaningAt rounds node.parts i).perform task) →
          (node.withPart rounds i other).perform task = (node.meaning rounds).perform task := by
  by_contra hneither
  obtain ⟨hcalls, hother⟩ := not_or.mp hneither
  simp only [Calls, not_forall] at hcalls
  obtain ⟨error, faulty, hfault, hfails⟩ := hcalls
  -- The fault goes unnoticed, so everything else in its place does.
  have hunnoticed (other : Meaning)
      (h : ∀ task ≠ called, other.perform task = (meaningAt rounds node.parts i).perform task) :
      (node.withPart rounds i faulty).perform task =
        (node.withPart rounds i other).perform task := by
    have hread (used : Mode) (state : used.State) :
        (∃ other after, other = error ∧ faulty.read used state = some (.error other, after)) ∨
          faulty.read used state = other.read used state := by
      by_cases hcalled : ⟨used, state⟩ = called
      · obtain rfl := hcalled
        obtain ⟨after, hafter⟩ := hfault.fails
        exact Or.inl ⟨error, after, rfl, hafter⟩
      · exact Or.inr ((hfault.perform_eq _ hcalled).trans (h _ hcalled).symm)
    rcases withPart_diverted_or_eq node task i (· = error) fun used _ => hread used with
      ⟨_, after, rfl, hafter⟩ | heq
    · exact absurd ⟨after, hafter⟩ hfails
    · exact heq
  refine hother fun other h => ?_
  rw [← hunnoticed other h, hunnoticed _ fun _ _ => rfl, withPart_self]

end Node

namespace Meaning

end Meaning

namespace Node

variable {rounds : Nat} {members : List (String × Node)} {task called : Task} {i : Nat}

end Node

namespace Meaning

variable {part : Meaning} {error : EvalError}

/-- An error of a statement is one of the sequence, if the statements before end normally. -/
theorem sequence_of_error {this : This} {front : List Meaning} (back : List Meaning)
    {frame after last : Frame} (hfront : sequence this front frame = some (.ok .proceed, after))
    (h : part.execute this after = some (.error error, last)) :
    sequence this (front ++ part :: back) frame = some (.error error, last) := by
  induction front generalizing frame with
  | nil =>
    obtain rfl : frame = after := congrArg Prod.snd (Option.some.inj hfront)
    exact Run.bind_of_error h
  | cons statement front ih =>
    obtain ⟨flow, middle, hstatement, hrest⟩ := Run.exists_of_bind hfront
    rw [List.cons_append, sequence, Run.bind_of_ok hstatement]
    cases flow with
    | proceed => exact ih hrest
    | _ => cases hrest

/-- An error of an element is one of the array, if the elements before have values. -/
theorem collect_of_error {σ : Type} {step : Meaning → Run σ Json} {front : List Meaning}
    (back : List Meaning) {state after last : σ} {items : List Json}
    (hfront : collect step front state = some (.ok items, after))
    (h : step part after = some (.error error, last)) :
    collect step (front ++ part :: back) state = some (.error error, last) := by
  induction front generalizing state items with
  | nil =>
    obtain rfl : state = after := congrArg Prod.snd (Option.some.inj hfront)
    exact Run.bind_of_error h
  | cons element front ih =>
    obtain ⟨item, middle, helement, hrest⟩ := Run.exists_of_bind hfront
    obtain ⟨others, last, hothers, hend⟩ := Run.exists_of_bind hrest
    obtain rfl : last = after := congrArg Prod.snd (Option.some.inj hend)
    rw [List.cons_append, collect, Run.bind_of_ok helement]
    exact Run.bind_of_error (ih hothers)

end Meaning

namespace Node

variable {rounds i : Nat} {node : Node}

/-- Nodes with another meaning at an index keep their own at all others. -/
theorem mapIdx_update_meaningAt (rounds : Nat) {nodes : List Node} (h : nodes[i]? = some node)
    (part : Meaning) :
    (nodes.mapIdx fun j _ => Function.update (meaningAt rounds nodes) i part j) =
      meanings rounds (nodes.take i) ++ part :: meanings rounds (nodes.drop (i + 1)) := by
  have hi : i < (meanings rounds nodes).length := by
    rw [meanings_eq_map, List.length_map]
    exact (List.getElem?_eq_some_iff.mp h).1
  rw [mapIdx_update h (fun _ meaning => meaning), mapIdx_meaningAt,
    List.set_eq_take_append_cons_drop, if_pos hi]
  simp only [meanings_eq_map, List.map_take, List.map_drop]

/-- A block that is built calls a statement when those before it have ended normally. -/
theorem calls_statement {statements : List Node} (h : statements[i]? = some node)
    {scope : Scope} {this : This} {environment started : Environment} {after : Frame}
    (hstart : Meaning.start scope environment = some (.ok (), started))
    (hfront : Meaning.sequence this (meanings rounds (statements.take i)) ⟨started, #[], 0⟩ =
      some (.ok .proceed, after)) :
    (block statements).Calls rounds ⟨.build scope this, environment⟩ i ⟨.execute this, after⟩ := by
  rintro error faulty ⟨⟨last, hlast⟩, -⟩
  rw [withPart, assemble, parts, mapIdx_update_meaningAt rounds h]
  have hsequence :=
    Meaning.sequence_of_error (meanings rounds (statements.drop (i + 1))) hfront hlast
  refine ⟨last.environment, (Run.bind_of_ok hstart).trans (Run.bind_of_error ?_)⟩
  rw [Meaning.callBlock, Build.inFrame, Run.focus, Run.bind_of_error hsequence]
  rfl

/-- An array that is built calls an element when those before it have been built. -/
theorem calls_element {elements : List Node} (h : elements[i]? = some node)
    {scope : Scope} {this : This} {environment after : Environment} {items : List Json}
    (hfront : Meaning.collect (·.build scope none) (meanings rounds (elements.take i)) environment =
      some (.ok items, after)) :
    (array elements).Calls rounds ⟨.build scope this, environment⟩ i
      ⟨.build scope none, after⟩ := by
  rintro error faulty ⟨⟨last, hlast⟩, -⟩
  rw [withPart, assemble, parts, mapIdx_update_meaningAt rounds h]
  exact ⟨last, Run.bind_of_error (Meaning.collect_of_error _ hfront hlast)⟩

/-- A reading of a node that the reading of a tree reaches at a place. -/
inductive Reached (rounds : Nat) (node : Node) (task : Task) : Node → Task → List Nat → Prop
  | here : Reached rounds node task node task []
  | inside {tree part : Node} {start called : Task} {i : Nat} {below : List Nat} :
      tree.parts[i]? = some part → tree.Calls rounds start i called →
      Reached rounds node task part called below → Reached rounds node task tree start (i :: below)

namespace Reached

variable {node tree : Node} {start : Task} {place : List Nat}

/-- The error of a reading that is reached is the error of the whole. -/
theorem failsWith (h : node.Reached rounds task tree start place) {error : EvalError}
    (hfails : (node.meaning rounds).FailsWith task error) :
    (tree.meaning rounds).FailsWith start error := by
  induction h with
  | here => exact hfails
  | inside hpart hcalls _ ih => exact hcalls.failsWith hpart ih

end Reached

end Node

namespace Interpreter

/-- The reading of a document by an interpreter. -/
def task (interpreter : Interpreter) : Task := ⟨.build .root none, interpreter.environment⟩

/-- A document fails at the root where the interpreter gives its error. -/
theorem failsWith_iff {rounds : Nat} {interpreter : Interpreter} {document : Node}
    {error : EvalError} : (document.meaning rounds).FailsWith interpreter.task error ↔
      interpreter.result rounds document = some (.error error) := by
  rw [result_eq, Option.map_eq_some_iff]
  constructor
  · rintro ⟨after, hafter⟩
    exact ⟨_, hafter, rfl⟩
  · rintro ⟨⟨result, after⟩, hafter, rfl⟩
    exact ⟨after, hafter⟩

end Interpreter

end JsonTemplate
