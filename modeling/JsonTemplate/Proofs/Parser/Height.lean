import JsonTemplate.Proofs.Node.Parts
import JsonTemplate.Proofs.Parser.Completeness

/-!
# How high a parsed tree can be

The limit on nesting counts literals, blocks, groups and minus signs. Operators are not counted:
those of one precedence associate to the left, and each of them puts one more node on top of the
left operand. So the limit bounds the height of a tree together with the longest chain of
operators in it, and it does not bound the height alone: a sum with enough terms is as high as
one likes, at the first level of nesting.
-/

namespace JsonTemplate

namespace Node

/-- The number of operators of one precedence that follow each other through their left operands,
from a node down. -/
def operatorRun (precedence : Nat) : Node → Nat
  | binary operator left _ =>
    if operator.precedence = precedence then operatorRun precedence left + 1 else 0
  | _ => 0

/-- No chain of operators of one precedence in a tree is longer than the limit. -/
def RunsWithin (limit : Nat) (tree : Node) : Prop :=
  ∀ inner : Node, inner.Occurs tree → ∀ precedence, inner.operatorRun precedence ≤ limit

/-- The parts of a tree have no longer runs than the tree. -/
theorem RunsWithin.part {limit : Nat} {tree part : Node} (h : tree.RunsWithin limit)
    (hpart : part ∈ tree.parts) : part.RunsWithin limit :=
  fun inner hinner => h inner (.inside hpart hinner)

/-- A tree has its own runs and those of its parts. -/
theorem runsWithin_iff {limit : Nat} {tree : Node} :
    tree.RunsWithin limit ↔
      (∀ precedence, tree.operatorRun precedence ≤ limit) ∧
        ∀ part ∈ tree.parts, part.RunsWithin limit := by
  constructor
  · exact fun htree => ⟨htree tree .here, fun part hpart => htree.part hpart⟩
  · rintro ⟨hroot, hparts⟩ inner hinner
    cases hinner with
    | here => exact hroot
    | inside hpart hinner => exact hparts _ hpart inner hinner

/-- A literal or a block without its first part has the chains of its other parts. -/
theorem RunsWithin.first_rest {node first : Node} {limit : Nat} (h : node.RunsWithin limit)
    (rest : Node) (hparts : node.parts = first :: rest.parts)
    (hrest : ∀ precedence, rest.operatorRun precedence = 0) :
    first.RunsWithin limit ∧ rest.RunsWithin limit := by
  obtain ⟨-, hnode⟩ := runsWithin_iff.mp h
  rw [hparts, List.forall_mem_cons] at hnode
  exact ⟨hnode.1, runsWithin_iff.mpr ⟨fun precedence => by simp [hrest precedence], hnode.2⟩⟩

/-- A node without parts is one high. -/
theorem height_le_one {node : Node} (h : node.parts = []) : node.height ≤ 1 := by
  rw [height_le_iff, h]
  exact ⟨Nat.one_pos, nofun⟩

/-- A literal or a block is as high as one of its first part or its other parts requires. -/
theorem height_le_of_rest {node first : Node} {bound : Nat} (rest : Node)
    (hparts : node.parts = first :: rest.parts) (hfirst : first.height < bound)
    (hrest : rest.height ≤ bound) : node.height ≤ bound := by
  rw [height_le_iff] at hrest ⊢
  rw [hparts, List.forall_mem_cons]
  exact ⟨hrest.1, hfirst, hrest.2⟩

/-- An operation is one higher than its operands. -/
theorem height_binary_le {operator : Operator} {left right : Node} {bound : Nat}
    (hleft : left.height < bound) (hright : right.height < bound) :
    (binary operator left right).height ≤ bound := by
  rw [height_le_iff]
  refine ⟨Nat.zero_lt_of_lt hleft, ?_⟩
  rw [parts, List.forall_mem_cons, List.forall_mem_singleton]
  exact ⟨hleft, hright⟩

end Node

/-- How high the trees inside some levels of nesting can be where chains of operators are limited:
on each level there may be a sum, one of its products, and a literal or a block around them. -/
def heightAllowance (limit levels : Nat) : Nat := (levels + 1) * (2 * limit + 2)

/-- Each level allows for two runs more. -/
theorem heightAllowance_succ (limit levels : Nat) :
    heightAllowance limit (levels + 1) = heightAllowance limit levels + (2 * limit + 2) :=
  Nat.succ_mul _ _

/-- Even the last level allows for two runs. -/
theorem le_heightAllowance (limit levels : Nat) : 2 * limit + 2 ≤ heightAllowance limit levels :=
  Nat.le_mul_of_pos_left _ (Nat.succ_pos _)

/-- How high the tree of a phrase can be. The tree of a sum or a product grows with the chain of
operators that it ends. -/
def HeightWithin (limit levels : Nat) (tree : Node) : Phrase → Prop
  | .object | .array | .statement => tree.height ≤ heightAllowance limit levels
  | .block => tree.height ≤ heightAllowance limit levels + 1
  | .value | .expression => tree.height + 1 ≤ heightAllowance limit levels
  | .sum => tree.height + limit + 1 ≤ tree.operatorRun 1 + heightAllowance limit levels
  | .product => tree.height + 2 * limit + 1 ≤ tree.operatorRun 2 + heightAllowance limit levels
  | .unary | .primary => tree.height + 2 * limit + 1 ≤ heightAllowance limit levels

/-- A node without parts leaves room for two runs above it. -/
theorem heightWithin_leaf {limit levels : Nat} {node : Node} (h : node.parts = []) :
    node.height + 2 * limit + 1 ≤ heightAllowance limit levels := by
  have hheight := Node.height_le_one h
  have hroom := le_heightAllowance limit levels
  omega

/-- The tree of every phrase keeps to its height where chains of operators are limited. -/
theorem heightWithin_of_derives {limit levels : Nat} {phrase : Phrase} {tree : Node}
    {input rest : List TokenKind} (h : Derives phrase levels tree input rest)
    (hruns : tree.RunsWithin limit) : HeightWithin limit levels tree phrase := by
  induction h with
  | @objectEnd levels | @arrayEnd levels =>
    have hroom := le_heightAllowance limit levels
    exact (Node.height_le_one rfl).trans (by omega)
  | @blockEnd levels => exact (Node.height_le_one rfl).trans (Nat.succ_pos _)
  | objectComma _ ih | arrayComma _ ih | blockSemicolon _ ih => exact ih hruns
  | @objectMember _ _ _ members _ _ _ _ _ ihValue ihMore =>
    obtain ⟨hvalue, hmore⟩ := hruns.first_rest (.object members) rfl fun _ => rfl
    exact Node.height_le_of_rest (.object members) rfl (ihValue hvalue) (ihMore hmore)
  | @arrayElement _ _ elements _ _ _ _ _ ihValue ihMore =>
    obtain ⟨hvalue, hmore⟩ := hruns.first_rest (.array elements) rfl fun _ => rfl
    exact Node.height_le_of_rest (.array elements) rfl (ihValue hvalue) (ihMore hmore)
  | @blockStatement _ _ statements _ _ _ _ _ _ _ ihStatement ihMore =>
    obtain ⟨hstatement, hmore⟩ := hruns.first_rest (.block statements) rfl fun _ => rfl
    exact Node.height_le_of_rest (.block statements) rfl
      (Nat.lt_succ_of_le (ihStatement hstatement)) (ihMore hmore)
  | @blockValue levels _ _ _ _ ih =>
    have hblock := ih hruns
    have hlevel := heightAllowance_succ limit levels
    simp only [HeightWithin] at hblock ⊢
    omega
  | expressionValue _ ih | unsigned _ ih => exact ih hruns
  | expressionStatement _ _ ih => exact Nat.le_of_succ_le (ih hruns)
  | binding _ ih | assignment _ ih | returning _ ih =>
    have hvalue := ih (hruns.part List.mem_cons_self)
    exact Node.height_le_iff.mpr
      ⟨Nat.zero_lt_of_lt hvalue, List.forall_mem_singleton.mpr hvalue⟩
  | @expression levels tree _ _ _ _ ih =>
    have hsum := ih hruns
    have hrun := hruns tree .here 1
    simp only [HeightWithin] at hsum ⊢
    omega
  | @term levels tree _ _ _ ih =>
    have hproduct := ih hruns
    have hrun := hruns tree .here 2
    simp only [HeightWithin] at hproduct ⊢
    omega
  | @addend levels operator left right _ _ _ hoperator _ _ ihLeft ihRight =>
    have hleft := ihLeft (hruns.part List.mem_cons_self)
    have hright := ihRight (hruns.part (List.mem_cons_of_mem _ List.mem_cons_self))
    have hrun := hruns right (.inside (List.mem_cons_of_mem _ List.mem_cons_self) .here) 2
    have hroom := le_heightAllowance limit levels
    have hchain : (Node.binary operator left right).operatorRun 1 = left.operatorRun 1 + 1 :=
      if_pos (Grammar.precedence_of_add_or_sub hoperator)
    simp only [HeightWithin] at hleft hright ⊢
    have hheight : (Node.binary operator left right).height ≤
        left.operatorRun 1 + heightAllowance limit levels - limit :=
      Node.height_binary_le (by omega) (by omega)
    omega
  | @operand levels tree _ _ _ ih => exact (ih hruns).trans (Nat.le_add_left _ _)
  | @factor levels operator left right _ _ _ hoperator _ _ ihLeft ihRight =>
    have hleft := ihLeft (hruns.part List.mem_cons_self)
    have hright := ihRight (hruns.part (List.mem_cons_of_mem _ List.mem_cons_self))
    have hroom := le_heightAllowance limit levels
    have hchain : (Node.binary operator left right).operatorRun 2 = left.operatorRun 2 + 1 :=
      if_pos (Grammar.precedence_of_mul_or_div hoperator)
    simp only [HeightWithin] at hleft hright ⊢
    have hheight : (Node.binary operator left right).height ≤
        left.operatorRun 2 + heightAllowance limit levels - 2 * limit :=
      Node.height_binary_le (by omega) (by omega)
    omega
  | @negation levels operand _ _ _ ih =>
    have hoperand := ih (hruns.part List.mem_cons_self)
    have hlevel := heightAllowance_succ limit levels
    simp only [HeightWithin] at hoperand ⊢
    have hheight : (Node.negate operand).height ≤ operand.height + 1 :=
      Node.height_le_iff.mpr
        ⟨Nat.succ_pos _, List.forall_mem_singleton.mpr (Nat.lt_succ_self _)⟩
    omega
  | least | integer | float | string | true_ | false_ | null | name | this =>
    exact heightWithin_leaf rfl
  | @nestedObject levels _ _ _ _ ih | @nestedArray levels _ _ _ _ ih
  | @group levels _ _ _ _ ih =>
    have hinside := ih hruns
    have hlevel := heightAllowance_succ limit levels
    simp only [HeightWithin] at hinside ⊢
    omega

/-- A sum of zeros with a number of plus signs. -/
def zeroSum : Nat → Node
  | 0 => .integer 0
  | signs + 1 => .binary .add (zeroSum signs) (.integer 0)

/-- The tokens of such a sum in front of others. -/
def zeroSumKinds : Nat → List TokenKind → List TokenKind
  | 0, rest => .integer 0 :: rest
  | signs + 1, rest => zeroSumKinds signs (.symbol .plus :: .integer 0 :: rest)

/-- The tokens of such a sum in an array. -/
def zeroSumTokens (signs : Nat) : List Token :=
  (.symbol .leftBracket :: zeroSumKinds signs [.symbol .rightBracket]).map (⟨·, ⟨0, 0⟩⟩)

/-- A sum of zeros is derived with any number of signs. -/
theorem derives_zeroSum (levels signs : Nat) (rest : List TokenKind) :
    Derives .sum levels (zeroSum signs) (zeroSumKinds signs rest) rest := by
  have hzero (rest : List TokenKind) :
      Derives .product levels (.integer 0) (.integer 0 :: rest) rest :=
    .operand (.unsigned (.integer (show 0 < 2 ^ 63 by decide)))
  induction signs generalizing rest with
  | zero => exact .term (hzero rest)
  | succ signs ih => exact .addend (Or.inl rfl) (ih _) (hzero rest)

/-- A sum of zeros in an array is read, however long it is. -/
theorem parse_zeroSumTokens (signs : Nat) :
    parse (zeroSumTokens signs) = .ok (.array [zeroSum signs]) := by
  apply parse_of_derives
  have hkinds : kinds (zeroSumTokens signs) =
      .symbol .leftBracket :: zeroSumKinds signs [.symbol .rightBracket] := by
    rw [zeroSumTokens, kinds, List.map_map]
    exact List.map_id _
  rw [hkinds]
  refine .array (.arrayElement (.expressionValue (.expression ?_ ?_)) .arrayEnd)
  · exact derives_zeroSum _ _ _
  · rintro _ ⟨⟩ ⟨operator, hoperator⟩
    cases operator <;> cases hoperator

/-- A sum is at least as high as it has plus signs. -/
theorem le_height_zeroSum (signs : Nat) : signs < (zeroSum signs).height := by
  induction signs with
  | zero => exact (Node.height_le_iff.mp le_rfl).1
  | succ signs ih =>
    have hleft := (Node.height_le_iff.mp (le_refl (zeroSum (signs + 1)).height)).2 _
      (List.mem_cons_self)
    exact Nat.lt_of_le_of_lt ih hleft

/-- A sum of zeros has a run of as many operators as it has signs. -/
theorem runsWithin_zeroSum {signs limit : Nat} (h : signs ≤ limit) :
    (zeroSum signs).RunsWithin limit := by
  have hzero : (zeroSum 0).RunsWithin limit :=
    Node.runsWithin_iff.mpr ⟨fun _ => Nat.zero_le _, nofun⟩
  have hrun (precedence signs : Nat) : (zeroSum signs).operatorRun precedence ≤ signs := by
    induction signs with
    | zero => exact le_rfl
    | succ signs ih =>
      rw [zeroSum, Node.operatorRun]
      split <;> omega
  induction signs with
  | zero => exact hzero
  | succ signs ih =>
    rw [Node.runsWithin_iff]
    refine ⟨fun precedence => (hrun precedence _).trans h, ?_⟩
    rw [zeroSum, Node.parts, List.forall_mem_cons, List.forall_mem_singleton]
    exact ⟨ih (Nat.le_of_succ_le h), hzero⟩

/-- A parsed tree in which no chain of operators of one precedence is longer than `limit` is at
most `129 * (2 * limit + 2)` nodes high. -/
theorem height_le_of_parse {tokens : List Token} {tree : Node} {limit : Nat}
    (h : parse tokens = .ok tree) (hruns : tree.RunsWithin limit) :
    tree.height ≤ 129 * (2 * limit + 2) := by
  obtain ⟨phrase, input, hphrase, hderives⟩ := exists_derives_of_parse h
  have hheight := heightWithin_of_derives hderives hruns
  rcases hphrase with rfl | rfl <;> exact hheight

/-- A sum of three operators in an array keeps to the bound for chains of three. -/
theorem height_zeroSum_three :
    parse (zeroSumTokens 3) = .ok (.array [zeroSum 3]) ∧
      (Node.array [zeroSum 3]).RunsWithin 3 ∧ (Node.array [zeroSum 3]).height ≤ 1032 := by
  have hparse := parse_zeroSumTokens 3
  have hruns : (Node.array [zeroSum 3]).RunsWithin 3 :=
    Node.runsWithin_iff.mpr
      ⟨fun _ => Nat.zero_le _, List.forall_mem_singleton.mpr (runsWithin_zeroSum le_rfl)⟩
  exact ⟨hparse, hruns, height_le_of_parse hparse hruns⟩

/-- No number bounds the height of all parsed trees. -/
theorem not_exists_height_bound :
    ¬∃ bound, ∀ tokens tree, parse tokens = .ok tree → tree.height ≤ bound := by
  rintro ⟨bound, hbound⟩
  have hheight := hbound _ _ (parse_zeroSumTokens bound)
  have hsum := (Node.height_le_iff.mp hheight).2 _ List.mem_cons_self
  exact Nat.lt_irrefl _ ((le_height_zeroSum bound).trans hsum)

end JsonTemplate
