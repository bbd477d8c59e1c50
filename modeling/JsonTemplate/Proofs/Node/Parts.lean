import JsonTemplate.Node

/-!
# The parts of a tree

The parts of a node are the nodes directly inside it. A node occurs in a tree at the root or in
one of the parts; it is exposed there if none of the nodes around it is an object literal. The
height of a tree counts the nodes on the longest way from its root to a node without parts. All
kinds of nodes are covered, also those that no template spells.
-/

namespace JsonTemplate.Node

/-- The nodes directly inside a node, from left to right. -/
def parts : Node → List Node
  | object members => members.map (·.2)
  | array elements => elements
  | assign _ value => [value]
  | binary _ left right => [left, right]
  | negate operand => [operand]
  | block statements => statements
  | return_ value => [value]
  | cond cases otherwise =>
    cases.flatMap (fun (condition, body) => [condition, body]) ++ otherwise.toList
  | while_ condition body => [condition, body]
  | for_ _ start stop step body => [start, stop] ++ step.toList ++ [body]
  | string _ | integer _ | float _ | boolean _ | null | lookup _ | this _ | break_ | continue_ =>
    []

/-- A choice has two parts for each case, and one more for what is left. -/
theorem length_parts_cond (cases : List (Node × Node)) (otherwise : Option Node) :
    (cond cases otherwise).parts.length = 2 * cases.length + otherwise.toList.length := by
  rw [parts, List.length_append]
  congr 1
  induction cases with
  | nil => rfl
  | cons case cases ih =>
    rw [List.flatMap_cons, List.length_append, ih]
    exact Nat.add_comm 2 _

/-- A part is smaller than the whole. -/
theorem sizeOf_lt_of_mem_parts {node part : Node} (h : part ∈ node.parts) :
    sizeOf part < sizeOf node := by
  cases node with
  | object members =>
    obtain ⟨⟨name, value⟩, hmember, rfl⟩ := List.mem_map.mp h
    have hsize := List.sizeOf_lt_of_mem hmember
    simp only [Prod.mk.sizeOf_spec, object.sizeOf_spec] at hsize ⊢
    omega
  | array elements | block elements =>
    have hsize := List.sizeOf_lt_of_mem (show part ∈ elements from h)
    simp only [array.sizeOf_spec, block.sizeOf_spec]
    omega
  | cond cases otherwise =>
    rcases List.mem_append.mp h with hcase | hotherwise
    · obtain ⟨⟨condition, body⟩, hcase, hpart⟩ := List.mem_flatMap.mp hcase
      have hsize := List.sizeOf_lt_of_mem hcase
      simp only [Prod.mk.sizeOf_spec, cond.sizeOf_spec, List.mem_cons, List.not_mem_nil,
        or_false] at hsize hpart ⊢
      rcases hpart with rfl | rfl <;> omega
    · obtain rfl := Option.mem_toList.mp hotherwise
      simp only [cond.sizeOf_spec, Option.some.sizeOf_spec]
      omega
  | for_ name start stop step body =>
    simp only [parts, List.cons_append, List.nil_append, List.mem_cons, List.mem_append,
      Option.mem_toList, List.not_mem_nil, or_false] at h
    rcases h with rfl | rfl | hstep | rfl
    · simp only [for_.sizeOf_spec]
      omega
    · simp only [for_.sizeOf_spec]
      omega
    · obtain rfl := hstep
      simp only [for_.sizeOf_spec, Option.some.sizeOf_spec]
      omega
    · simp only [for_.sizeOf_spec]
      omega
  | _ =>
    simp only [parts, List.mem_cons, List.not_mem_nil, or_false] at h
    all_goals rcases h with rfl | rfl
    all_goals simp +arith

/-- What passes from the parts of a node to the node holds of every tree. -/
theorem induction_parts {motive : Node → Prop}
    (step : ∀ node, (∀ part ∈ node.parts, motive part) → motive node) (node : Node) :
    motive node := by
  refine step node fun part hpart => ?_
  have hsize := sizeOf_lt_of_mem_parts hpart
  exact induction_parts step part
termination_by node

/-- Where a node occurs in a tree: at its root or in one of its parts. -/
inductive Occurs (inner : Node) : Node → Prop
  | here : Occurs inner inner
  | inside {node part : Node} : part ∈ node.parts → Occurs inner part → Occurs inner node

/-- What occurs in something that occurs in a node occurs in the node. -/
theorem Occurs.trans {inner middle node : Node} (h : inner.Occurs middle)
    (hmiddle : middle.Occurs node) : inner.Occurs node := by
  induction hmiddle with
  | here => exact h
  | inside hpart _ ih => exact .inside hpart ih

/-- What occurs inside a node occurs in one of its parts. -/
theorem Occurs.exists_part {inner node : Node} (h : inner.Occurs node) (hne : inner ≠ node) :
    ∃ part ∈ node.parts, inner.Occurs part := by
  cases h with
  | here => exact absurd rfl hne
  | inside hpart h => exact ⟨_, hpart, h⟩

/-- Where a node occurs in a tree with no object literal of the tree around it. -/
inductive Exposed (inner : Node) : Node → Prop
  | here : Exposed inner inner
  | inside {node part : Node} : (∀ members, node ≠ object members) → part ∈ node.parts →
      Exposed inner part → Exposed inner node

/-- The number of nodes on the longest way from the root of a tree down to a leaf. -/
def height (node : Node) : Nat :=
  (node.parts.attach.map fun part => part.val.height).foldr max 0 + 1
termination_by node
decreasing_by exact sizeOf_lt_of_mem_parts part.property

/-- A node is as high as its highest part allows. -/
theorem height_le_iff {node : Node} {bound : Nat} :
    node.height ≤ bound ↔ 0 < bound ∧ ∀ part ∈ node.parts, part.height < bound := by
  have hmax (heights : List Nat) :
      heights.foldr max 0 < bound ↔ 0 < bound ∧ ∀ n ∈ heights, n < bound := by
    induction heights with
    | nil => simp
    | cons n heights ih =>
      rw [List.foldr_cons, Nat.max_lt, ih, List.forall_mem_cons]
      exact and_left_comm
  rw [height, Nat.add_one_le_iff, hmax]
  simp

end JsonTemplate.Node
