import JsonTemplate.Parser

/-!
# The shape of the trees that are read

The grammar has no rule for loops, so a tree that a rule reads has no `while`. The proof goes
through the rules: each puts together trees that other rules have read.
-/

namespace JsonTemplate

/-- Whether the value read, if one is read, has a property. -/
def Gives {α : Type} {bound : Nat} (P : α → Prop) : Reading α bound → Prop
  | .ok parsed => P parsed.value
  | .error _ => True

/-- Every reading gives something. -/
theorem gives_true {α : Type} {bound : Nat} (reading : Reading α bound) :
    Gives (fun _ => True) reading := by
  cases reading <;> trivial

/-- What a reading gives is handed on to the reading after it. -/
theorem Gives.bind {α β : Type} {bound wider : Nat} {P : α → Prop} {Q : β → Prop}
    {reading : Reading α bound} {next : Parsed α bound → Reading β wider}
    (h : Gives P reading) (hnext : ∀ parsed, P parsed.value → Gives Q (next parsed)) :
    Gives Q (reading >>= next) := by
  cases reading with
  | ok parsed => exact hnext parsed h
  | error failure => trivial

/-- What a reading gives is changed with it. -/
theorem Gives.map {α β : Type} {bound wider : Nat} {P : α → Prop} {Q : β → Prop}
    {reading : Reading α bound} {next : Parsed α bound → Parsed β wider}
    (h : Gives P reading) (hnext : ∀ parsed, P parsed.value → Q (next parsed).value) :
    Gives Q (next <$> reading) := by
  cases reading with
  | ok parsed => exact hnext parsed h
  | error failure => trivial

/-- Rules that read trees without `while`. -/
structure Rules.WhileFree (rules : Rules) : Prop where
  unary : ∀ input, Gives (fun node => node.whileFree) (rules.unary input)
  object : ∀ input, Gives (fun node => node.whileFree) (rules.object input)
  array : ∀ input, Gives (fun node => node.whileFree) (rules.array input)
  block : ∀ input, Gives (fun node => node.whileFree) (rules.block input)
  group : ∀ input, Gives (fun node => node.whileFree) (rules.group input)

namespace Grammar

variable {inner : Option Rules} {rule : Rule Node}

/-- One level down the same holds as of the rules there. -/
theorem gives_descend {bound : Nat} {input : List Token} {P : Node → Prop}
    {use : Rules → Reading Node bound} (h : ∀ rules ∈ inner, Gives P (use rules)) :
    Gives P (descend inner input use) := by
  cases inner with
  | none => trivial
  | some rules => exact h rules rfl

/-- A tree of a single token contains no `while`. -/
theorem whileFree_of_leaf? {kind : TokenKind} {node : Node} (h : leaf? kind = some node) :
    node.whileFree := by
  unfold leaf? at h
  split at h <;> cases h <;> rfl

/-- An operand without operators contains no `while`. -/
theorem primary_whileFree (h : ∀ rules ∈ inner, rules.WhileFree) (input : List Token) :
    Gives (fun node => node.whileFree) (primary inner input) := by
  unfold primary
  split
  · trivial
  · split
    · split
      · simp [Gives, Node.whileFree]
      · trivial
    · exact .bind (gives_true _) fun _ _ => by
        simp [Gives, pure, Except.pure, Parsed.map, Node.whileFree]
    · exact gives_descend fun rules hr => .map ((h rules hr).object _) fun _ hp => hp
    · exact gives_descend fun rules hr => .map ((h rules hr).array _) fun _ hp => hp
    · exact gives_descend fun rules hr => .map ((h rules hr).group _) fun _ hp => hp
    · split
      · rename_i node hl
        exact whileFree_of_leaf? hl
      · repeat' split
        all_goals trivial

/-- An operand with its signs contains no `while`. -/
theorem unary_whileFree (h : ∀ rules ∈ inner, rules.WhileFree) (input : List Token) :
    Gives (fun node => node.whileFree) (unary inner input) := by
  have negated_whileFree (rest : List Token) :
      Gives (fun node => node.whileFree) (negated inner rest) :=
    gives_descend fun rules hr => .map ((h rules hr).unary _) fun _ hp => hp
  unfold unary
  split
  · split
    · split
      · rfl
      · exact negated_whileFree _
    · exact negated_whileFree _
  · exact primary_whileFree h _

/-- A chain of operators contains no `while` if its operands contain none. -/
theorem chain_whileFree (h : ∀ input, Gives (fun node => node.whileFree) (rule input))
    (least : Nat) (left : Node) (hleft : left.whileFree) (input : List Token) :
    Gives (fun node => node.whileFree) (chain rule least left input) := by
  fun_induction chain rule least left input with
  | case1 => exact hleft
  | case2 => exact hleft
  | case3 => exact hleft
  | case4 least left token rest operator ho hp ih1 ih2 =>
    refine .bind (h rest) fun first hfirst => ?_
    refine .bind (ih1 first hfirst) fun right hright => ?_
    refine .bind (ih2 first right ?_) fun all hall => hall
    simp [Node.whileFree, hleft, hright]

/-- An expression contains no `while` if its operands contain none. -/
theorem binary_whileFree (h : ∀ input, Gives (fun node => node.whileFree) (rule input))
    (least : Nat) (input : List Token) :
    Gives (fun node => node.whileFree) (binary rule least input) :=
  .bind (h input) fun first hfirst =>
    .bind (chain_whileFree h least first.value hfirst first.rest) fun _ hall => hall

/-- A value contains no `while` if expressions and the rules one level down give none. -/
theorem value_whileFree (hi : ∀ rules ∈ inner, rules.WhileFree)
    (h : ∀ input, Gives (fun node => node.whileFree) (rule input)) (input : List Token) :
    Gives (fun node => node.whileFree) (value inner rule input) := by
  unfold value
  split
  · split
    · refine gives_descend fun rules hr => ?_
      split
      · exact .map ((hi rules hr).block _) fun _ hp => hp
      · trivial
    · exact h _
  · exact h _

/-- The members of an object contain no `while` if its values contain none. -/
theorem members_whileFree (h : ∀ input, Gives (fun node => node.whileFree) (rule input))
    (input : List Token) :
    Gives (fun members => Node.membersWhileFree members) (members rule input) := by
  fun_induction members rule input with
  | case1 => rfl
  | case2 input hskip raw span span' rest hs ih =>
    refine .bind (h rest) fun first hfirst => ?_
    refine .bind (ih first) fun more hmore => ?_
    simp only [Gives, pure, Except.pure, Parsed.map, Node.membersWhileFree, hfirst, hmore,
      Bool.and_self]
  | case3 => trivial
  | case4 => trivial

/-- The elements of an array contain no `while` if its values contain none. -/
theorem elements_whileFree (h : ∀ input, Gives (fun node => node.whileFree) (rule input))
    (input : List Token) :
    Gives (fun nodes => Node.allWhileFree nodes) (elements rule input) := by
  fun_induction elements rule input with
  | case1 => trivial
  | case2 => rfl
  | case3 input hskip token rest hs hk ih =>
    refine .bind (h (token :: rest)) fun first hfirst => ?_
    refine .bind (ih first) fun more hmore => ?_
    simp only [Gives, pure, Except.pure, Parsed.map, Node.allWhileFree, hfirst, hmore,
      Bool.and_self]

/-- A statement contains no `while` if its expressions contain none. -/
theorem statement_whileFree (h : ∀ input, Gives (fun node => node.whileFree) (rule input))
    (input : List Token) :
    Gives (fun node => node.whileFree) (statement rule input) := by
  unfold statement
  split
  · split
    · exact .map (h _) fun _ hp => hp
    · trivial
    · trivial
  · refine .bind (h _) fun value hvalue => ?_
    split
    · exact hvalue
    · trivial
  · exact .map (h _) fun _ hp => hp
  · exact h _

/-- The statements of a block contain no `while` if its expressions contain none. -/
theorem statements_whileFree (h : ∀ input, Gives (fun node => node.whileFree) (rule input))
    (input : List Token) :
    Gives (fun nodes => Node.allWhileFree nodes) (statements rule input) := by
  fun_induction statements rule input with
  | case1 => trivial
  | case2 => rfl
  | case3 input hskip token rest hs hk ih =>
    refine .bind (statement_whileFree h (token :: rest)) fun first hfirst => ?_
    split
    · refine .bind (ih first) fun more hmore => ?_
      simp only [Gives, pure, Except.pure, Parsed.map, Node.allWhileFree, hfirst, hmore,
        Bool.and_self]
    · trivial

/-- A group contains no `while` if its expression contains none. -/
theorem group_whileFree (h : ∀ input, Gives (fun node => node.whileFree) (rule input))
    (input : List Token) :
    Gives (fun node => node.whileFree) (group rule input) := by
  refine .bind (h input) fun inside hinside => ?_
  dsimp only
  split
  · exact hinside
  · trivial

end Grammar

namespace Rules

/-- A level gives no `while` if the one below gives none. -/
theorem whileFree_level {inner : Option Rules} (h : ∀ rules ∈ inner, rules.WhileFree) :
    (level inner).WhileFree :=
  have expression := Grammar.binary_whileFree (Grammar.unary_whileFree h) 1
  have value := Grammar.value_whileFree h expression
  { unary := Grammar.unary_whileFree h
    object := fun input => .map (Grammar.members_whileFree value input) fun _ hp => hp
    array := fun input => .map (Grammar.elements_whileFree value input) fun _ hp => hp
    block := fun input => .map (Grammar.statements_whileFree expression input) fun _ hp => hp
    group := Grammar.group_whileFree expression }

/-- The rules of every level read trees without `while`. -/
theorem whileFree_nested (levels : Nat) : (nested levels).WhileFree := by
  induction levels with
  | zero => exact whileFree_level fun _ h => nomatch h
  | succ levels ih =>
    exact whileFree_level fun rules h => by
      cases h
      exact ih

end Rules

namespace Grammar

/-- A document contains no `while`. -/
theorem root_whileFree (input : List Token) :
    Gives (fun node => node.whileFree) (root input) := by
  unfold root
  split
  · exact .map ((Rules.whileFree_nested _).object _) fun _ hp => hp
  · exact .map ((Rules.whileFree_nested _).array _) fun _ hp => hp
  · trivial

end Grammar

/-- A parsed tree has no `while`. -/
theorem whileFree_of_parse {tokens : List Token} {root : Node} (h : parse tokens = .ok root) :
    root.whileFree := by
  unfold parse at h
  split at h
  · rename_i hd
    cases h
    have hroot := Grammar.root_whileFree (beforeEnd tokens)
    unfold Grammar.document at hd
    cases hr : Grammar.root (beforeEnd tokens) with
    | error failure => simp [hr, bind, Except.bind] at hd
    | ok parsed =>
      simp only [hr, bind, Except.bind] at hd
      simp only [hr, Gives] at hroot
      split at hd <;> cases hd
      exact hroot
  · cases h

end JsonTemplate
