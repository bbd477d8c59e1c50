import JsonTemplate.Proofs.Node.Parts

/-!
# Places in a tree

A place in a tree is the way from the root down to it, as the numbers of the parts to go into. The
object literals around a place are found on that way; the nearest of them is the last one, and the
place lies in the value of one of its pairs. That value is a callable block or it is not, which is
all that decides whether `this` can be used at the place.
-/

namespace JsonTemplate.Node

/-- The node at a place. -/
def at? : Node → List Nat → Option Node
  | node, [] => some node
  | node, i :: below => node.parts[i]?.bind fun part => part.at? below

/-- A pair of an object literal in a tree, and a place in the value of the pair. -/
structure Pair where
  /-- The way to the literal. -/
  above : List Nat
  members : List (String × Node)
  /-- The number of the pair among the members. -/
  index : Nat
  /-- The way from the pair's value to the place. -/
  below : List Nat

namespace Pair

/-- The pair in a tree that has the pair's tree as a part. -/
def inside (pair : Pair) (i : Nat) : Pair := { pair with above := i :: pair.above }

/-- A pair with a callable block directly as its value. -/
def HoldsBlock (pair : Pair) : Prop :=
  ∃ name statements, pair.members[pair.index]? = some (name, block statements)

end Pair

/-- The pair of a node in whose value a place is, if the node is an object literal. -/
def pair? : Node → Nat → List Nat → Option Pair
  | object members, i, below => some ⟨[], members, i, below⟩
  | _, _, _ => none

/-- The pair around a place that belongs to the nearest object literal. -/
def nearestPair? : Node → List Nat → Option Pair
  | _, [] => none
  | node, i :: below =>
    (node.parts[i]?.bind fun part => (part.nearestPair? below).map (·.inside i)).or
      (node.pair? i below)

/-- The nearest pair around a place is the one in the part, or else the one that the node makes. -/
theorem nearestPair?_cons {node part : Node} {i : Nat} (h : node.parts[i]? = some part)
    (below : List Nat) : node.nearestPair? (i :: below) =
      ((part.nearestPair? below).map (·.inside i)).or (node.pair? i below) := by
  rw [nearestPair?, h, Option.bind_some]

end JsonTemplate.Node
