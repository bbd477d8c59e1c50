import JsonTemplate.Proofs.Evaluation.Invariants
import JsonTemplate.Proofs.Evaluation.Visits
import JsonTemplate.Proofs.Json.Members

/-!
# The scope of `this`

The object that `this` means is fixed by the place where it stands. If the pair around it in the
nearest object literal has a callable block directly as its value, `this` is the object that the
pairs before that pair have been built to; and anywhere else it is an error to come to it.

What carries this down the tree is the object that a node lets its parts see. It is the one that the
node is given itself, except that nodes other than blocks hide it when they are built; and only an
object literal gives its parts another one.
-/

namespace JsonTemplate

namespace Node

/-- The object that a node shows to its parts, if it is no object literal. -/
def seen : Node → Mode → This
  | block _, mode => mode.this
  | _, mode => mode.object

/-- No node but an object literal shows its parts another object than it is shown. -/
theorem seen_of_uses {node part : Node} {mode used : Mode}
    (hnode : ∀ members, node ≠ object members) (h : node.Uses mode used) :
    part.seen used = node.seen mode := by
  have hevaluate (this : This) : part.seen (.evaluate this) = this := by cases part <;> rfl
  have hexecute (this : This) : part.seen (.execute this) = this := by cases part <;> rfl
  have hbuild (scope : Scope) : part.seen (.build scope none) = none := by cases part <;> rfl
  cases node with
  | object members => exact absurd rfl (hnode members)
  | array elements =>
    cases mode with
    | evaluate this | execute this =>
      rcases h with rfl | rfl
      · exact hevaluate this
      · exact hexecute this
    | build scope this =>
      obtain rfl := h
      exact hbuild scope
  | block statements =>
    obtain rfl := h
    exact hexecute mode.this
  | _ =>
    rcases h with rfl | rfl
    · exact hevaluate mode.object
    · exact hexecute mode.object

variable {rounds : Nat} {node tree value : Node} {task start literal : Task} {place : List Nat}
  {pair : Pair} {built : List (String × Json)} {after : Environment}

/-- Each `this` in a tree that is read in a mode has an object to see. -/
def EachThisSees (tree : Node) (mode : Mode) : Prop :=
  ∀ path place, tree.at? place = some (this path) →
    match tree.nearestPair? place with
    | some pair => pair.HoldsBlock
    | none => tree.seen mode ≠ none

/-- If each `this` in a tree sees its object, each one in a part does in the readings it is used
in. -/
theorem EachThisSees.part {part : Node} {mode used : Mode} (h : tree.EachThisSees mode)
    (hpart : part ∈ tree.parts) (hused : tree.Uses mode used) : part.EachThisSees used := by
  intro path place hat
  obtain ⟨i, hi⟩ := List.mem_iff_getElem?.mp hpart
  have hplace := h path (i :: place) (by rw [Node.at?, hi, Option.bind_some, hat])
  rw [nearestPair?_cons hi] at hplace
  cases hbelow : part.nearestPair? place with
  | some pair =>
    rw [hbelow] at hplace
    exact hplace
  | none =>
    rw [hbelow] at hplace
    cases tree with
    | object members =>
      obtain ⟨name, statements, hmember⟩ := hplace
      obtain ⟨sofar, rfl⟩ := hused
      have hblock : (object members).parts[i]? = some (block statements) := by
        rw [parts, List.getElem?_map, hmember, Option.map_some]
      obtain rfl := Option.some.inj (hblock.symm.trans hi)
      exact Option.some_ne_none sofar
    | _ =>
      rw [seen_of_uses (fun members => Node.noConfusion) hused]
      exact hplace

/-- A tree in which each `this` sees its object never uses one outside of objects. -/
theorem permits_of_eachThisSees {mode : Mode} (h : tree.EachThisSees mode) :
    tree.Permits (· ≠ .thisOutsideObject) (fun _ => True) mode := by
  cases tree with
  | this path => exact ⟨fun hnone => absurd hnone (h path [] rfl), fun _ => EvalError.noConfusion⟩
  | _ => simp [Permits]

/-- A tree with an object for each `this` never fails for the lack of one. -/
theorem EachThisSees.not_failsWith (h : tree.EachThisSees task.mode) :
    ¬ (tree.meaning rounds).FailsWith task .thisOutsideObject := by
  intro hfails
  refine error_of_failsWith (E := (· ≠ .thisOutsideObject)) (F := fun _ => True) ?_ trivial
    (fun _ => trivial) (fun _ _ => permits_of_eachThisSees)
    (fun _ _ hnode _ hpart _ => hnode.part hpart) h hfails rfl
  rintro error hoperation rfl
  exact hoperation

end Node

namespace Meaning

end Meaning

end JsonTemplate
