import JsonTemplate.Proofs.Parser.ValidPrefix

/-!
# Operators in two passes

Operands with operators between them are a flat list, and two passes over the list say which tree
it means. The first pass goes from left to right and joins the two neighbours of each `*` and `/`;
the second does the same for each `+` and `-`.

The grammar has no flat lists: it climbs precedences. A chain that takes sums lets an inner chain
take the factors of each addend first and then goes on itself. Both give the same tree, for every
number of operands and at every depth.
-/

namespace JsonTemplate

namespace Operator

/-- The operators of the first pass. -/
def isFactor : Operator → Bool
  | mul | div => true
  | add | sub => false

/-- The operators of the second pass. -/
def isAddend : Operator → Bool
  | add | sub => true
  | mul | div => false

end Operator

/-- An operand, and each further operand with the operator in front of it. -/
structure FlatExpression where
  first : Node
  more : List (Operator × Node)

namespace FlatExpression

/-- One pass from left to right. Where an operator belongs to the pass, what stands at its two
sides is joined, and the result is at the left of the next operator. -/
def pass (joins : Operator → Bool) (first : Node) : List (Operator × Node) → FlatExpression
  | [] => ⟨first, []⟩
  | (operator, operand) :: more =>
    if joins operator then pass joins (.binary operator first operand) more
    else
      let after := pass joins operand more
      ⟨first, (operator, after.first) :: after.more⟩

/-- What two passes leave of a flat list: those of `*` and `/`, then those of `+` and `-`. -/
def twoPasses (first : Node) (more : List (Operator × Node)) : FlatExpression :=
  let products := pass Operator.isFactor first more
  pass Operator.isAddend products.first products.more

/-- Operands joined from left to right, whatever the operators between them. -/
def joined (first : Node) (more : List (Operator × Node)) : Node :=
  more.foldl (fun left link => .binary link.1 left link.2) first

variable {joins : Operator → Bool}

/-- Operators of the pass at the front are joined with everything in front of them. -/
theorem pass_append {front : List (Operator × Node)} (h : ∀ link ∈ front, joins link.1)
    (first : Node) (back : List (Operator × Node)) :
    pass joins first (front ++ back) = pass joins (joined first front) back := by
  induction front generalizing first with
  | nil => rfl
  | cons link front ih =>
    obtain ⟨hlink, hfront⟩ := List.forall_mem_cons.mp h
    rw [List.cons_append, pass, if_pos hlink, ih hfront, joined, joined, List.foldl_cons]

/-- Before an operator that is not of the pass, the first operand is left as it is. -/
theorem pass_of_notBefore {more : List (Operator × Node)}
    (h : NotBefore (fun link => joins link.1) more) (first other : Node) :
    pass joins first more = ⟨first, (pass joins other more).more⟩ := by
  cases more with
  | nil => rfl
  | cons link more =>
    have hlink : ¬joins link.1 := h link rfl
    simp only [pass, if_neg hlink]

/-- A pass leaves none of its operators, and brings in no others. -/
theorem operator_of_mem_pass {first : Node} {more : List (Operator × Node)}
    {link : Operator × Node} (h : link ∈ (pass joins first more).more) :
    ¬joins link.1 ∧ ∃ operand, (link.1, operand) ∈ more := by
  induction more generalizing first with
  | nil => nomatch h
  | cons head more ih =>
    obtain ⟨operator, operand⟩ := head
    rw [pass] at h
    split at h
    · obtain ⟨hlink, other, hother⟩ := ih h
      exact ⟨hlink, other, List.mem_cons_of_mem _ hother⟩
    · rename_i hoperator
      rcases List.mem_cons.mp h with rfl | hrest
      · exact ⟨hoperator, operand, List.mem_cons_self⟩
      · obtain ⟨hlink, other, hother⟩ := ih hrest
        exact ⟨hlink, other, List.mem_cons_of_mem _ hother⟩

/-- Two passes leave a single tree. -/
theorem twoPasses_more (first : Node) (more : List (Operator × Node)) :
    (twoPasses first more).more = [] := by
  refine List.eq_nil_iff_forall_not_mem.mpr fun link hlink => ?_
  obtain ⟨haddend, operand, hfactors⟩ := operator_of_mem_pass hlink
  obtain ⟨hfactor, -⟩ := operator_of_mem_pass hfactors
  revert haddend hfactor
  cases link.1 <;> decide

/-- A sum takes the product after it whole. -/
theorem twoPasses_addend {operator : Operator} (haddend : operator.isAddend)
    {factors more : List (Operator × Node)} (hfactors : ∀ link ∈ factors, link.1.isFactor)
    (hmore : NotBefore (fun link : Operator × Node => link.1.isFactor) more)
    (first operand : Node) :
    twoPasses first ((operator, operand) :: (factors ++ more)) =
      twoPasses (.binary operator first (joined operand factors)) more := by
  have hfactor : ¬operator.isFactor := by
    cases operator with
    | add | sub => exact Bool.false_ne_true
    | mul | div => cases haddend
  have hpass : pass Operator.isFactor first ((operator, operand) :: (factors ++ more)) =
      ⟨first, (operator, joined operand factors) :: (pass Operator.isFactor first more).more⟩ := by
    rw [pass, if_neg hfactor, pass_append hfactors, pass_of_notBefore hmore _ first]
  have hrest : pass Operator.isFactor (.binary operator first (joined operand factors)) more =
      ⟨.binary operator first (joined operand factors),
        (pass Operator.isFactor first more).more⟩ := pass_of_notBefore hmore _ first
  rw [twoPasses, twoPasses, hpass, hrest]
  dsimp only
  rw [pass, if_pos haddend]

/-- A product at the front is the first operand of what follows. -/
theorem twoPasses_factor {operator : Operator} (h : operator.isFactor) (first operand : Node)
    (more : List (Operator × Node)) :
    twoPasses first ((operator, operand) :: more) =
      twoPasses (.binary operator first operand) more := by
  simp only [twoPasses, pass, if_pos h]

end FlatExpression

/-- An operand as it is written: its tokens and the tree that they mean. -/
structure WrittenOperand where
  tokens : List Token
  tree : Node

/-- An operator's sign and the operand after it. -/
structure WrittenLink where
  operator : Operator
  place : Span
  operand : WrittenOperand

namespace WrittenLink

/-- The sign of an operation as it is written. -/
def sign (link : WrittenLink) : Token := ⟨.symbol link.operator.sign, link.place⟩

/-- The tokens of an operation: its sign and its right operand. -/
def tokens (link : WrittenLink) : List Token := link.sign :: link.operand.tokens

/-- The operator and the operand's tree. -/
def flat (link : WrittenLink) : Operator × Node := (link.operator, link.operand.tree)

end WrittenLink

/-- An operand is read, and all its tokens are taken, when the given ones follow. -/
def WrittenOperand.ReadBefore (operand : WrittenOperand) (rule : Rule Node) (next : List Token) :
    Prop :=
  outcomeOf (rule (operand.tokens ++ next)) = .read operand.tree next

/-- Each operand is read when the next operator follows it, and the last one when the tokens after
the whole follow it. -/
def ReadInTurn (rule : Rule Node) (rest : List Token) : WrittenOperand → List WrittenLink → Prop
  | operand, [] => operand.ReadBefore rule rest
  | operand, link :: more =>
    operand.ReadBefore rule [link.sign] ∧ ReadInTurn rule rest link.operand more

/-- An operand is read alike before all tokens with the same first token. -/
theorem WrittenOperand.ReadBefore.congr {rule : Rule Node} {operand : WrittenOperand}
    {next other : List Token} {follows : List Token → Prop} (h : operand.ReadBefore rule next)
    (htime : InTime follows rule) (hother : other.head? = next.head?) :
    operand.ReadBefore rule other := by
  unfold ReadBefore at h ⊢
  have hstops := htime (operand.tokens ++ next)
  generalize hinput : operand.tokens ++ next = input at h hstops
  cases hstops with
  | reads front rest value hreads =>
    rw [hreads rest (Or.inl rfl)] at h
    obtain ⟨hvalue, rfl⟩ := ParseOutcome.mk.inj h
    obtain rfl := Except.ok.inj hvalue
    obtain rfl := List.append_cancel_right hinput
    exact hreads other (Or.inl hother)
  | fails front rest fault more value hfails =>
    rw [hfails rest rfl] at h
    cases h

namespace ReadInTurn

variable {rule : Rule Node} {follows : List Token → Prop} {rest : List Token}
  {operand : WrittenOperand} {links : List WrittenLink}

/-- The first operand is read before all the others. -/
theorem readBefore (h : ReadInTurn rule rest operand links) (htime : InTime follows rule) :
    operand.ReadBefore rule (links.flatMap (·.tokens) ++ rest) := by
  cases links with
  | nil => exact h
  | cons link more => exact h.1.congr htime rfl

/-- After some of the operands the others are read in turn. -/
theorem drop {front back : List WrittenLink} (h : ReadInTurn rule rest operand (front ++ back)) :
    ∃ before, ReadInTurn rule rest before back := by
  induction front generalizing operand with
  | nil => exact ⟨operand, h⟩
  | cons link front ih => exact ih h.2

end ReadInTurn

namespace Grammar

variable {rule : Rule Node} {follows : List Token → Prop} {rest : List Token}
  {operand : WrittenOperand} {link : WrittenLink} {links more : List WrittenLink}

/-- A chain that an operator continues takes the operand after it, and the factors after that. -/
theorem outcomeOf_chain_link {least : Nat} (h : ReadInTurn rule rest operand (link :: more))
    (htime : InTime follows rule) (hle : least ≤ link.operator.precedence) (left : Node) :
    outcomeOf (chain rule least left ((link :: more).flatMap (·.tokens) ++ rest)) =
      (outcomeOf (chain rule (link.operator.precedence + 1) link.operand.tree
        (more.flatMap (·.tokens) ++ rest))).andThen fun right after =>
          outcomeOf (chain rule least (.binary link.operator left right) after) := by
  have hsign : operator? link.sign.kind = some link.operator := operator?_eq_some_iff.mpr rfl
  have hread : outcomeOf (rule (link.operand.tokens ++ (more.flatMap (·.tokens) ++ rest))) = _ :=
    h.2.readBefore htime
  rw [List.flatMap_cons, WrittenLink.tokens, List.cons_append, List.cons_append,
    List.append_assoc, outcomeOf_chain_of_operator hsign (Nat.not_lt.mpr hle), hread]
  rfl

/-- A chain goes on after a factor. -/
theorem outcomeOf_chain_factor {least : Nat} (h : ReadInTurn rule rest operand (link :: more))
    (htime : InTime follows rule) (hle : least ≤ 2) (hfactor : link.operator.isFactor)
    (left : Node) :
    outcomeOf (chain rule least left ((link :: more).flatMap (·.tokens) ++ rest)) =
      outcomeOf (chain rule least (.binary link.operator left link.operand.tree)
        (more.flatMap (·.tokens) ++ rest)) := by
  have hprecedence : link.operator.precedence = 2 := by
    revert hfactor
    cases link.operator <;> decide
  have hstop : NotBefore (BindsTightly 3) (kinds (more.flatMap (·.tokens) ++ rest)) :=
    fun kind _ => not_bindsTightly_three kind
  rw [outcomeOf_chain_link h htime (by omega), hprecedence,
    outcomeOf_chain_of_not_bindsTightly hstop]
  rfl

/-- A chain of factors takes them all, up to what is no factor. -/
theorem outcomeOf_chain_factors {front back : List WrittenLink}
    (h : ReadInTurn rule rest operand (front ++ back)) (htime : InTime follows rule)
    (hfront : ∀ link ∈ front, link.operator.isFactor)
    (hback : NotBefore (fun link => link.operator.isFactor) back)
    (hrest : NotBefore IsOperator (kinds rest)) (left : Node) :
    outcomeOf (chain rule 2 left ((front ++ back).flatMap (·.tokens) ++ rest)) =
      .read (FlatExpression.joined left (front.map (·.flat)))
        (back.flatMap (·.tokens) ++ rest) := by
  induction front generalizing left operand with
  | nil =>
    refine outcomeOf_chain_of_not_bindsTightly ?_
    cases back with
    | nil => exact hrest.mono fun _ => isOperator_of_bindsTightly
    | cons link back =>
      refine notBefore_cons.mpr ?_
      have hsign : operator? link.sign.kind = some link.operator := operator?_eq_some_iff.mpr rfl
      refine not_bindsTightly_of_lt hsign ?_
      have hlink := notBefore_cons.mp hback
      revert hlink
      cases link.operator <;> decide
  | cons link front ih =>
    obtain ⟨hlink, hfront⟩ := List.forall_mem_cons.mp hfront
    rw [List.cons_append] at h ⊢
    rw [outcomeOf_chain_factor h htime Nat.le.refl hlink, ih h.2 hfront]
    rfl

/-- A chain of sums takes all operands and gives the tree of the two passes. -/
theorem outcomeOf_chain_twoPasses (h : ReadInTurn rule rest operand links)
    (htime : InTime follows rule) (hrest : NotBefore IsOperator (kinds rest)) (left : Node) :
    outcomeOf (chain rule 1 left (links.flatMap (·.tokens) ++ rest)) =
      .read (FlatExpression.twoPasses left (links.map (·.flat))).first rest := by
  induction hlength : links.length using Nat.strong_induction_on
    generalizing links operand left with
  | _ length ih =>
    cases links with
    | nil =>
      exact outcomeOf_chain_of_not_bindsTightly
        (hrest.mono fun _ => isOperator_of_bindsTightly)
    | cons link more =>
      rw [List.length_cons] at hlength
      by_cases hfactor : link.operator.isFactor
      · rw [outcomeOf_chain_factor h htime (by decide) hfactor,
          ih more.length (by omega) h.2 _ rfl, List.map_cons, WrittenLink.flat,
          FlatExpression.twoPasses_factor hfactor]
      · -- The factors that follow the addend belong to it, and the chain goes on behind them.
        obtain ⟨front, back, rfl, hfront, hback⟩ : ∃ front back, more = front ++ back ∧
            (∀ link ∈ front, link.operator.isFactor) ∧
            NotBefore (fun link => link.operator.isFactor) back :=
          ⟨_, _, List.takeWhile_append_dropWhile.symm, all_takeWhile _ _,
            notBefore_dropWhile (fun link : WrittenLink => link.operator.isFactor) more⟩
        have haddend : link.operator.isAddend ∧ link.operator.precedence = 1 := by
          revert hfactor
          cases link.operator <;> decide
        obtain ⟨before, hbefore⟩ := h.2.drop
        rw [List.length_append] at hlength
        rw [outcomeOf_chain_link h htime (Nat.le_of_eq haddend.2.symm), haddend.2,
          outcomeOf_chain_factors h.2 htime hfront hback hrest]
        refine (ih back.length (by omega) hbefore _ rfl).trans ?_
        rw [List.map_cons, List.map_append, WrittenLink.flat,
          FlatExpression.twoPasses_addend haddend.1]
        · exact List.forall_mem_map.mpr hfront
        · intro link hlink
          rw [List.head?_map] at hlink
          obtain ⟨written, hwritten, rfl⟩ := Option.map_eq_some_iff.mp hlink
          exact hback written hwritten

/-- Operands with operators between them, each read in full before the operator after it, are an
expression, if what follows the last of them is no operator. All their tokens are taken, and the
tree is what two passes over the flat list leave. -/
theorem expressionAt_eq_twoPasses {levels : Nat} {rest : List Token} {first : WrittenOperand}
    {links : List WrittenLink}
    (hoperands : ReadInTurn (Rules.nested levels).unary rest first links)
    (hrest : NotBefore IsOperator (kinds rest)) :
    ∃ parsed, expressionAt levels (first.tokens ++ links.flatMap (·.tokens) ++ rest) = .ok parsed ∧
      parsed.rest = rest ∧
      FlatExpression.twoPasses first.tree (links.map (·.flat)) = ⟨parsed.value, []⟩ := by
  have htime := (Rules.inTime_nested levels).unary
  have hread : outcomeOf ((Rules.nested levels).unary
      (first.tokens ++ (links.flatMap (·.tokens) ++ rest))) = _ := hoperands.readBefore htime
  have houtcome : outcomeOf (expressionAt levels
      (first.tokens ++ links.flatMap (·.tokens) ++ rest)) =
        .read (FlatExpression.twoPasses first.tree (links.map (·.flat))).first rest := by
    rw [expressionAt, outcomeOf_binary, List.append_assoc, hread]
    exact outcomeOf_chain_twoPasses hoperands htime hrest first.tree
  obtain ⟨parsed, hparsed, hvalue, hleft⟩ := exists_parsed_of_outcomeOf houtcome
  refine ⟨parsed, hparsed, hleft, ?_⟩
  rw [hvalue, ← FlatExpression.twoPasses_more first.tree (links.map (·.flat))]

/-- Operands of a sum with a product in it: a negated number, the least integer and two names. -/
def negatedOne : WrittenOperand :=
  ⟨[(TokenKind.symbol .minus).token, (TokenKind.integer 1).token], .negate (.integer 1)⟩

/-- The least integer as an operand: two tokens, without a level of nesting. -/
def leastInteger : WrittenOperand :=
  ⟨[(TokenKind.symbol .minus).token, (TokenKind.integer (2 ^ 63)).token],
    .integer Int64.minValue⟩

/-- A name as an operand. -/
def named (name : String) : WrittenOperand :=
  ⟨[(TokenKind.identifier name).token], .lookup name⟩

/-- Operations of both precedences in a row. -/
def mixedLinks : List WrittenLink :=
  [⟨.sub, ⟨0, 0⟩, leastInteger⟩, ⟨.mul, ⟨0, 0⟩, named "x"⟩, ⟨.add, ⟨0, 0⟩, named "y"⟩]

/-- One negated is diminished by the product of the least integer and a name, and the other name is
added to the difference. -/
theorem expressionAt_mixedLinks :
    ReadInTurn (Rules.nested 1).unary [] negatedOne mixedLinks ∧
      ∃ parsed, expressionAt 1 (negatedOne.tokens ++ mixedLinks.flatMap (·.tokens) ++ []) =
          .ok parsed ∧
        parsed.value = .binary .add (.binary .sub (.negate (.integer 1))
          (.binary .mul (.integer Int64.minValue) (.lookup "x"))) (.lookup "y") := by
  have hread : ReadInTurn (Rules.nested 1).unary [] negatedOne mixedLinks :=
    ⟨rfl, rfl, rfl, rfl⟩
  obtain ⟨parsed, hparsed, -, htwoPasses⟩ := expressionAt_eq_twoPasses hread (notBefore_nil _)
  exact ⟨hread, parsed, hparsed, (congrArg FlatExpression.first htwoPasses).symm⟩

end Grammar

end JsonTemplate
