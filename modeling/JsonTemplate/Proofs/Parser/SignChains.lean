import JsonTemplate.Proofs.Json.Parsing

/-!
# Chains of minus signs

Every minus sign in front of an operand goes one level down, so a chain is read if it is no longer
than there are levels, and else it is refused for its depth. The sign in front of the magnitude of
the least integer belongs to that integer and needs no level.
-/

namespace JsonTemplate

/-- A tree with a number of minus signs in front. -/
def Node.negations : Nat → Node → Node
  | 0, operand => operand
  | count + 1, operand => .negate (operand.negations count)

open Grammar

variable {left : List TokenKind} {levels : Nat} {input : List Token}

/-- A chain starts with a minus sign or with its operand. -/
theorem exists_first_of_chain {p : TokenKind → Prop} {first : TokenKind} {rest : List TokenKind}
    {count : Nat} (hinput : kinds input = List.replicate count (.symbol .minus) ++ first :: rest)
    (hminus : p (.symbol .minus)) (hfirst : p first) :
    ∃ token after, input = token :: after ∧ p token.kind := by
  cases count with
  | zero =>
    obtain ⟨span, after, rfl, -⟩ := kinds_eq_cons_iff.mp hinput
    exact ⟨_, after, rfl, hfirst⟩
  | succ count =>
    rw [List.replicate_succ, List.cons_append] at hinput
    obtain ⟨span, after, rfl, -⟩ := kinds_eq_cons_iff.mp hinput
    exact ⟨_, after, rfl, hminus⟩

/-- A chain of minus signs in front of an operand that needs no level is read if there are as many
levels as signs. -/
theorem readsWhere_negations {first : TokenKind} {more : List TokenKind} {leaf : Node} {count : Nat}
    (hfirst : first ≠ .integer (2 ^ 63))
    (hread : ∀ levels input, kinds input = first :: more ++ left →
      Accepts (Leaves leaf left) ((Rules.nested levels).unary input))
    (hinput : kinds input = List.replicate count (.symbol .minus) ++ (first :: more ++ left)) :
    ReadsWhere (count ≤ levels) (leaf.negations count) left
      ((Rules.nested levels).unary input) := by
  induction count generalizing levels input with
  | zero =>
    exact (hread levels input hinput).mono (fun _ _ hp => ⟨hp, Nat.zero_le _⟩) fun _ => False.elim
  | succ count ih =>
    rw [List.replicate_succ, List.cons_append] at hinput
    obtain ⟨span, rest, rfl, hrest⟩ := kinds_eq_cons_iff.mp hinput
    -- Whatever comes next, a sign or the operand, the present sign does not belong to it.
    obtain ⟨token, after, rfl, hne⟩ :=
      exists_first_of_chain (p := (· ≠ .integer (2 ^ 63))) hrest (by simp) hfirst
    rw [unary_of_minus hne]
    cases levels with
    | zero => exact ⟨rfl, Nat.not_succ_le_zero count⟩
    | succ fewer =>
      have hfewer : ReadsWhere (count + 1 ≤ fewer + 1) (leaf.negations count) left
          ((Rules.nested fewer).unary (token :: after)) := by
        rw [Nat.add_le_add_iff_right]
        exact ih hrest
      exact hfewer.map fun _ hp => ⟨⟨congrArg Node.negate hp.1.1, hp.1.2⟩, hp.2⟩

/-- The magnitude of an integer is an operand. -/
theorem accepts_unary_magnitude {magnitude : Nat} (h : magnitude < 2 ^ 63)
    (hinput : kinds input = .integer magnitude :: left) :
    Accepts (Leaves (.integer (.ofInt magnitude)) left) ((Rules.nested levels).unary input) := by
  obtain ⟨span, rest, rfl, hrest⟩ := kinds_eq_cons_iff.mp hinput
  have hvalue := integer?_natCast_eq_some_iff.mpr ⟨h, rfl⟩
  rw [unary_of_ne_minus (by simp)]
  simp only [primary, hvalue]
  exact ⟨rfl, hrest⟩

/-- The magnitude of the least integer is an operand together with its sign. -/
theorem accepts_unary_least (hinput : kinds input = .symbol .minus :: .integer (2 ^ 63) :: left) :
    Accepts (Leaves (.integer Int64.minValue) left) ((Rules.nested levels).unary input) := by
  obtain ⟨span, rest, rfl, hrest⟩ := kinds_eq_cons_iff.mp hinput
  obtain ⟨span, rest, rfl, hleft⟩ := kinds_eq_cons_iff.mp hrest
  rw [Rules.nested_eq_level]
  exact ⟨rfl, hleft⟩

/-- Without a sign it is refused. -/
theorem settles_unary_least (hinput : kinds input = .integer (2 ^ 63) :: left) :
    Settles (fun _ _ => False) (fun failure => failure.fault = .integerTooLarge (2 ^ 63))
      ((Rules.nested levels).unary input) := by
  obtain ⟨span, rest, rfl, hrest⟩ := kinds_eq_cons_iff.mp hinput
  rw [unary_of_ne_minus (by simp)]
  rfl

/-- The only element of an array at the root is read with all levels that may be nested. -/
theorem settles_root_of_element {P : Node → Prop} {E : Failure → Prop} {token : Token}
    {rest : List Token} (span : Span)
    (htoken : token.kind ∉ [.symbol .comma, .symbol .rightBracket, .symbol .arrow])
    (h : Settles (fun value after => P value ∧ kinds after = [.symbol .rightBracket]) E
      ((Rules.nested nestingLimit).unary (token :: rest))) :
    Settles (fun tree after => (∃ value, P value ∧ tree = .array [value]) ∧ after = []) E
      (root (⟨.symbol .leftBracket, span⟩ :: token :: rest)) := by
  simp only [List.mem_cons, List.not_mem_nil, or_false, not_or] at htoken
  obtain ⟨hcomma, hbracket, harrow⟩ := htoken
  have hvalue : Settles (fun value after => P value ∧ kinds after = [.symbol .rightBracket]) E
      (valueAt nestingLimit (token :: rest)) := by
    rw [valueAt_of_ne_arrow harrow]
    refine settles_binary_of_stop h fun value after hp => ?_
    rw [hp.2]
    exact (Spelling.notBefore_isOperator rfl).mono fun kind => isOperator_of_bindsTightly
  have harray : Settles (fun tree after => (∃ value, P value ∧ tree = .array [value]) ∧ after = [])
      E ((Rules.nested nestingLimit).array (token :: rest)) := by
    refine settles_array.mpr (settles_elements_element hcomma hbracket ?_)
    refine hvalue.mono (fun value after hp => ?_) fun _ => id
    refine settles_elements_close hp.2 fun last hlast => ?_
    exact ⟨⟨value, hp.1, rfl⟩, List.map_eq_nil_iff.mp hlast⟩
  exact harray.map fun _ hp => hp

/-- A reading of the root with nothing after it is the parsing of the document. -/
theorem parse_of_settles {tokens : List Token} {P : Node → Prop} {E : ParseFault → Prop}
    (h : Settles (fun tree after => P tree ∧ after = []) (fun failure => E failure.fault)
      (root (beforeEnd tokens))) :
    (∃ tree, parse tokens = .ok tree ∧ P tree) ∨
      ∃ error, parse tokens = .error error ∧ E error.fault := by
  cases hread : root (beforeEnd tokens) with
  | error failure =>
    rw [hread] at h
    refine .inr ⟨failure.toError (endPosition tokens), ?_, ?_⟩
    · simp only [parse, document, hread, bind, Except.bind]
    · rw [Failure.toError]
      split <;> exact h
  | ok parsed =>
    rw [hread] at h
    refine .inl ⟨parsed.value, ?_, h.1⟩
    have hafter : parsed.rest = [] := h.2
    rw [parse_eq_ok_iff_document]
    simp only [document, hread, bind, Except.bind, hafter]
    rfl

/-- A chain of minus signs in front of an operand, as the only element of an array. -/
theorem parse_negations {tokens : List Token} {first : TokenKind} {more : List TokenKind}
    {leaf : Node} {count : Nat} (hleast : first ≠ .integer (2 ^ 63))
    (hfirst : first ∉ [.symbol .comma, .symbol .rightBracket, .symbol .arrow])
    (hread : ∀ levels input, kinds input = first :: more ++ [.symbol .rightBracket] →
      Accepts (Leaves leaf [.symbol .rightBracket]) ((Rules.nested levels).unary input))
    (hkinds : kinds (beforeEnd tokens) = .symbol .leftBracket ::
      (List.replicate count (.symbol .minus) ++ (first :: more ++ [.symbol .rightBracket]))) :
    (count ≤ nestingLimit → parse tokens = .ok (.array [leaf.negations count])) ∧
      (nestingLimit < count → ∃ error, parse tokens = .error error ∧ error.fault = .tooDeep) := by
  obtain ⟨span, rest, htokens, hrest⟩ := kinds_eq_cons_iff.mp hkinds
  obtain ⟨token, after, rfl, htoken⟩ := exists_first_of_chain
    (p := (· ∉ [.symbol .comma, .symbol .rightBracket, .symbol .arrow])) hrest (by simp) hfirst
  have hchain : ReadsWhere (count ≤ nestingLimit) (leaf.negations count) [.symbol .rightBracket]
      ((Rules.nested nestingLimit).unary (token :: after)) :=
    readsWhere_negations hleast hread hrest
  have hroot := settles_root_of_element
    (P := fun value => value = leaf.negations count ∧ count ≤ nestingLimit) span htoken
    (hchain.mono (fun _ _ hp => ⟨⟨hp.1.1, hp.2⟩, hp.1.2⟩) fun _ => id)
  rw [← htokens] at hroot
  constructor
  · intro hle
    rcases parse_of_settles (E := fun fault => fault = .tooDeep ∧ ¬count ≤ nestingLimit) hroot with
      ⟨tree, hparse, value, ⟨rfl, -⟩, rfl⟩ | ⟨error, -, -, hlt⟩
    · exact hparse
    · exact absurd hle hlt
  · intro hlt
    rcases parse_of_settles (E := fun fault => fault = .tooDeep ∧ ¬count ≤ nestingLimit) hroot with
      ⟨tree, -, value, ⟨-, hle⟩, -⟩ | ⟨error, hparse, hfault, -⟩
    · exact absurd hlt (Nat.not_lt_of_le hle)
    · exact ⟨error, hparse, hfault⟩

end JsonTemplate
