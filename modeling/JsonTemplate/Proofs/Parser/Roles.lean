import JsonTemplate.Proofs.Node.Parts
import JsonTemplate.Proofs.Parser.Completeness

/-!
# The roles of nodes in parsed trees

The grammar has three roles for a node: the value of a member or an element of an array, a
statement of a block, and an expression. A block is only a value, a binding and a return are only
statements, and nodes for branches and loops have no role. Integers are the magnitudes that a
token can hold, and the least integer.
-/

namespace JsonTemplate

/-- What a node is to the node around it. -/
inductive Role where
  | value | statement | expression

/-- A node that the grammar admits in a role, with all nodes inside it in roles of theirs. -/
inductive Node.InRole : Role → Node → Prop
  | block {statements : List Node} :
      (∀ statement ∈ statements, InRole .statement statement) → InRole .value (block statements)
  | expressionValue {node : Node} : InRole .expression node → InRole .value node
  | assign {name : String} {value : Node} :
      InRole .expression value → InRole .statement (assign name value)
  | return_ {value : Node} : InRole .expression value → InRole .statement (return_ value)
  | expressionStatement {node : Node} : InRole .expression node → InRole .statement node
  | object {members : List (String × Node)} :
      (∀ member ∈ members, InRole .value member.2) → InRole .expression (object members)
  | array {elements : List Node} :
      (∀ element ∈ elements, InRole .value element) → InRole .expression (array elements)
  | string (text : String) : InRole .expression (string text)
  | integer {value : Int64} :
      0 ≤ value.toInt ∨ value = Int64.minValue → InRole .expression (integer value)
  | float (value : Double) : InRole .expression (float value)
  | boolean (value : Bool) : InRole .expression (boolean value)
  | null : InRole .expression null
  | lookup (name : String) : InRole .expression (lookup name)
  | binary {operator : Operator} {left right : Node} : InRole .expression left →
      InRole .expression right → InRole .expression (binary operator left right)
  | negate {operand : Node} : InRole .expression operand → InRole .expression (negate operand)
  | this (path : List Accessor) : InRole .expression (this path)

namespace Node

/-- The role that a node gives its parts. -/
def partRole : Node → Role
  | object _ | array _ => .value
  | block _ => .statement
  | _ => .expression

/-- The parts of a node in a role are in the role that the node gives them. -/
theorem InRole.part {role : Role} {node part : Node} (h : InRole role node)
    (hpart : part ∈ node.parts) : InRole node.partRole part := by
  induction h with
  | block hstatements => exact hstatements part hpart
  | expressionValue _ ih | expressionStatement _ ih => exact ih hpart
  | object hmembers =>
    obtain ⟨member, hmember, rfl⟩ := List.mem_map.mp hpart
    exact hmembers member hmember
  | array helements => exact helements part hpart
  | assign hvalue | return_ hvalue | negate hvalue =>
    obtain rfl := List.mem_singleton.mp hpart
    exact hvalue
  | binary hleft hright =>
    rcases List.mem_cons.mp hpart with rfl | hpart
    · exact hleft
    · obtain rfl := List.mem_singleton.mp hpart
      exact hright
  | _ => exact absurd hpart List.not_mem_nil

/-- A node that occurs in a tree in a role is in a role. -/
theorem Occurs.inRole {inner node : Node} (h : inner.Occurs node) {role : Role}
    (hnode : InRole role node) : ∃ role, InRole role inner := by
  induction h generalizing role with
  | here => exact ⟨role, hnode⟩
  | inside hpart _ ih => exact ih (hnode.part hpart)

/-- A list of nodes contains no `while` if none of them does. -/
theorem allWhileFree_iff {nodes : List Node} :
    allWhileFree nodes ↔ ∀ node ∈ nodes, node.whileFree := by
  induction nodes with
  | nil => simp [allWhileFree]
  | cons node rest ih => simp [allWhileFree, ih]

/-- Members contain no `while` if none of their values does. -/
theorem membersWhileFree_iff {members : List (String × Node)} :
    membersWhileFree members ↔ ∀ member ∈ members, member.2.whileFree := by
  induction members with
  | nil => simp [membersWhileFree]
  | cons member rest ih => simp [membersWhileFree, ih]

/-- No node in a role is a loop. -/
theorem InRole.whileFree {role : Role} {node : Node} (h : InRole role node) : node.whileFree := by
  induction h with
  | block _ ih | array _ ih => exact allWhileFree_iff.mpr ih
  | object _ ih => exact membersWhileFree_iff.mpr ih
  | binary _ _ ihLeft ihRight => exact Bool.and_eq_true_iff.mpr ⟨ihLeft, ihRight⟩
  | expressionValue _ ih | expressionStatement _ ih | assign _ ih | return_ _ ih | negate _ ih =>
    exact ih
  | _ => rfl

/-- A node that is the value of a member or an element of an array somewhere in a tree. -/
inductive IsValueIn (node tree : Node) : Prop
  | member {name : String} {members : List (String × Node)} :
      (name, node) ∈ members → (object members).Occurs tree → IsValueIn node tree
  | element {elements : List Node} :
      node ∈ elements → (array elements).Occurs tree → IsValueIn node tree

/-- Whatever is a value in a tree stands in the role of a value. -/
theorem IsValueIn.inRole {node tree : Node} (h : node.IsValueIn tree) {role : Role}
    (htree : InRole role tree) : InRole .value node := by
  cases h with
  | member hmember hobject =>
    obtain ⟨_, hrole⟩ := hobject.inRole htree
    exact hrole.part (List.mem_map_of_mem hmember)
  | element helement harray =>
    obtain ⟨_, hrole⟩ := harray.inRole htree
    exact hrole.part helement

end Node

/-- The role that a phrase gives its tree. -/
def Phrase.role : Phrase → Role
  | value | block => .value
  | statement => .statement
  | object | array | expression | sum | product | unary | primary => .expression

/-- Every derived tree is in the role of its phrase. -/
theorem Derives.inRole {phrase : Phrase} {levels : Nat} {tree : Node}
    {input rest : List TokenKind} (h : Derives phrase levels tree input rest) :
    tree.InRole phrase.role := by
  induction h with
  | objectEnd => exact .object nofun
  | arrayEnd => exact .array nofun
  | blockEnd => exact .block nofun
  | objectMember _ _ ihValue ihMore =>
    cases ihMore with
    | object hmembers => exact .object (List.forall_mem_cons.mpr ⟨ihValue, hmembers⟩)
  | arrayElement _ _ ihValue ihMore =>
    cases ihMore with
    | array helements => exact .array (List.forall_mem_cons.mpr ⟨ihValue, helements⟩)
  | blockStatement _ _ _ ihStatement ihMore =>
    cases ihMore with
    | block hstatements => exact .block (List.forall_mem_cons.mpr ⟨ihStatement, hstatements⟩)
    | expressionValue h => cases h
  | objectComma _ ih | arrayComma _ ih | blockSemicolon _ ih | blockValue _ ih | expression _ _ ih
  | term _ ih | operand _ ih | unsigned _ ih | nestedObject _ ih | nestedArray _ ih
  | group _ ih => exact ih
  | expressionValue _ ih => exact .expressionValue ih
  | binding _ ih | assignment _ ih => exact .assign ih
  | returning _ ih => exact .return_ ih
  | expressionStatement _ _ ih => exact .expressionStatement ih
  | addend _ _ _ ihLeft ihRight | factor _ _ _ ihLeft ihRight => exact .binary ihLeft ihRight
  | least => exact .integer (Or.inr rfl)
  | negation _ ih => exact .negate ih
  | integer hmagnitude =>
    refine .integer (Or.inl ?_)
    rw [toInt_of_integer? (Grammar.integer?_natCast_eq_some_iff.mpr ⟨hmagnitude, rfl⟩)]
    exact Int.natCast_nonneg _
  | float => exact .float _
  | string => exact .string _
  | true_ | false_ => exact .boolean _
  | null => exact .null
  | name => exact .lookup _
  | this => exact .this _

/-- The root of what is parsed stands in the role of an expression. -/
theorem inRole_of_parse {tokens : List Token} {tree : Node} (h : parse tokens = .ok tree) :
    tree.InRole .expression := by
  obtain ⟨phrase, input, hphrase, hderives⟩ := exists_derives_of_parse h
  have hrole := hderives.inRole
  rcases hphrase with rfl | rfl <;> exact hrole

end JsonTemplate
