import JsonTemplate.Proofs.Parser.FirstFault

/-!
# Places play no part in parsing

Moving tokens to other places in a source changes nothing that a rule does: it takes the same
tokens, reads the same value, or fails with the same fault at the same token. Tokens of the same
kinds therefore spell the same tree, or have errors that differ in the position alone.
-/

namespace JsonTemplate

/-- The same tokens at no place in particular. -/
def unplaced (tokens : List Token) : List Token := tokens.map (·.kind.token)

/-- Tokens without their places are told by their kinds. -/
theorem unplaced_eq_map_kinds (tokens : List Token) :
    unplaced tokens = (kinds tokens).map TokenKind.token := by
  rw [kinds, List.map_map]
  rfl

/-- Tokens keep their kinds without their places. -/
theorem kinds_unplaced (tokens : List Token) : kinds (unplaced tokens) = kinds tokens :=
  List.map_map ..

/-- What does not stand at the front does not stand there without places either. -/
theorem notBefore_unplaced {p : TokenKind → Prop} {tokens : List Token}
    (h : NotBefore p (kinds tokens)) : NotBefore p (kinds (unplaced tokens)) := by
  rwa [kinds_unplaced]

/-- The same outcome, without the places of the tokens left. -/
def ParseOutcome.unplaced {α : Type} (outcome : ParseOutcome α) : ParseOutcome α :=
  ⟨outcome.result, JsonTemplate.unplaced outcome.rest⟩

/-- A reader makes the same of some tokens wherever they stand. -/
def PlacelessAt {α : Type} (reader : Reader α) (input : List Token) : Prop :=
  reader (unplaced input) = (reader input).unplaced

/-- A rule makes the same of tokens wherever they stand. -/
def Placeless {α : Type} {bound : List Token → Nat}
    (rule : (input : List Token) → Reading α (bound input)) : Prop :=
  ∀ input, PlacelessAt (fun input => outcomeOf (rule input)) input

section

variable {α β : Type} {reader : Reader α} {input : List Token}

/-- What another reader makes of the tokens after some is the same wherever they stand. -/
theorem PlacelessAt.of_eq {next : Reader α} {rest : List Token} (hnext : PlacelessAt next rest)
    (h : reader input = next rest) (hmoved : reader (unplaced input) = next (unplaced rest)) :
    PlacelessAt reader input := by
  unfold PlacelessAt at hnext ⊢
  rw [h, hmoved, hnext]

/-- The reader stops at a token, wherever that stands. -/
theorem PlacelessAt.stop {result : Except ParseFault α} {rest : List Token}
    (h : reader input = ⟨result, rest⟩)
    (hmoved : reader (unplaced input) = ⟨result, unplaced rest⟩) : PlacelessAt reader input := by
  unfold PlacelessAt
  rw [h, hmoved]
  rfl

/-- Reading on is independent of places if both readings are. -/
theorem PlacelessAt.andThen {next : α → Reader β} (h : PlacelessAt reader input)
    (hnext : ∀ value rest, reader input = .read value rest → PlacelessAt (next value) rest) :
    PlacelessAt (fun input => (reader input).andThen next) input := by
  unfold PlacelessAt at h ⊢
  dsimp only
  rw [h]
  cases hread : reader input with
  | mk result rest =>
    cases result with
    | ok value => exact hnext value rest hread
    | error fault => rfl

/-- A reading with its value changed is independent of places if the reading is. -/
theorem PlacelessAt.map {f : α → β} (h : PlacelessAt reader input) :
    PlacelessAt (fun input => (reader input).map f) input :=
  h.andThen fun _ _ _ => rfl

end

/-- The rules of a level that make the same of tokens wherever they stand. -/
structure Rules.Placeless (rules : Rules) : Prop where
  unary : JsonTemplate.Placeless rules.unary
  object : JsonTemplate.Placeless rules.object
  array : JsonTemplate.Placeless rules.array
  block : JsonTemplate.Placeless rules.block
  group : JsonTemplate.Placeless rules.group

namespace Grammar

variable {inner : Option Rules} {rule : Rule Node}

/-- Paths are read independently of places. -/
theorem accessors_placeless : Placeless accessors := by
  intro input
  induction input using accessors.induct with
  | case1 span =>
    have hfail (span : Span) : outcomeOf (accessors [⟨.symbol .dot, span⟩]) =
        .fail (.expected .fieldName) [] := by
      rw [accessors]
      rfl
    exact .stop (hfail span) (hfail ⟨0, 0⟩)
  | case2 span name rest hname =>
    refine .stop (outcomeOf_accessors_unnamed hname span rest) ?_
    exact outcomeOf_accessors_unnamed (by exact hname) ⟨0, 0⟩ (unplaced rest)
  | case3 span name rest field hname ih =>
    refine ih.map.of_eq (outcomeOf_accessors_field hname span rest) ?_
    exact outcomeOf_accessors_field (by exact hname) ⟨0, 0⟩ (unplaced rest)
  | case4 span =>
    have hfail (span : Span) : outcomeOf (accessors [⟨.symbol .leftBracket, span⟩]) =
        .fail (.expected .index) [] := by
      rw [accessors]
      rfl
    exact .stop (hfail span) (hfail ⟨0, 0⟩)
  | case5 span index rest haccessor =>
    refine .stop (outcomeOf_accessors_unindexed haccessor span rest) ?_
    exact outcomeOf_accessors_unindexed (by exact haccessor) ⟨0, 0⟩ (unplaced rest)
  | case6 span index accessor haccessor span' rest ih =>
    refine ih.map.of_eq (outcomeOf_accessors_index haccessor span span' rest) ?_
    exact outcomeOf_accessors_index (by exact haccessor) ⟨0, 0⟩ ⟨0, 0⟩ (unplaced rest)
  | case7 span index accessor haccessor found hclose =>
    have hfound := notBefore_of_forall_ne hclose
    refine .stop (outcomeOf_accessors_unclosed haccessor span hfound) ?_
    exact outcomeOf_accessors_unclosed (by exact haccessor) ⟨0, 0⟩ (notBefore_unplaced hfound)
  | case8 token rest hdot₁ hdot hbracket₁ hbracket hstray =>
    refine .stop (outcomeOf_accessors_stray hstray rest) ?_
    exact outcomeOf_accessors_stray (by exact hstray) (unplaced rest)
  | case9 token rest hdot₁ hdot hbracket₁ hbracket hstray =>
    have hread : outcomeOf (accessors (token :: rest)) = .read [] (token :: rest) := by
      rw [accessors, if_neg hstray]
      · rfl
      all_goals assumption
    have hstop := notBefore_of_accessors hread
    rw [← kinds_unplaced] at hstop
    refine .stop hread ?_
    rw [accessors_of_stop hstop]
    rfl
  | case10 =>
    have hread : outcomeOf (accessors []) = .read [] [] := by
      rw [accessors]
      rfl
    exact .stop hread hread

/-- An opening sign is refused where nothing may be nested, and goes one level down elsewhere. -/
theorem placelessAt_of_descend {token : Token} {rest : List Token} {rule : Rules → Rule Node}
    (hread : ∀ span other, primary inner (⟨token.kind, span⟩ :: other) =
      descend inner (⟨token.kind, span⟩ :: other) fun rules =>
        (·.widen (length_le_succ other)) <$> rule rules other)
    (h : ∀ rules ∈ inner, PlacelessAt (fun input => outcomeOf (rule rules input)) rest) :
    PlacelessAt (fun input => outcomeOf (primary inner input)) (token :: rest) := by
  cases inner with
  | none =>
    exact .stop (congrArg outcomeOf (hread token.span rest))
      (congrArg outcomeOf (hread ⟨0, 0⟩ (unplaced rest)))
  | some rules =>
    refine (h rules rfl).of_eq ?_ ?_
    · exact (congrArg outcomeOf (hread token.span rest)).trans (outcomeOf_widen _)
    · exact (congrArg outcomeOf (hread ⟨0, 0⟩ (unplaced rest))).trans (outcomeOf_widen _)

/-- Operands without signs are read independently of places. -/
theorem primary_placeless (h : ∀ rules ∈ inner, rules.Placeless) : Placeless (primary inner) := by
  intro input
  cases input with
  | nil => rfl
  | cons token rest =>
    obtain ⟨kind, span⟩ := token
    cases kind with
    | integer magnitude =>
      cases hvalue : integer? magnitude with
      | some value =>
        exact .stop (outcomeOf_primary_integer hvalue span rest)
          (outcomeOf_primary_integer hvalue ⟨0, 0⟩ (unplaced rest))
      | none =>
        exact .stop (outcomeOf_primary_tooLarge hvalue span rest)
          (outcomeOf_primary_tooLarge hvalue ⟨0, 0⟩ (unplaced rest))
    | keyword word =>
      cases word with
      | this =>
        refine ((accessors_placeless rest).map (f := .this)).of_eq ?_ ?_ <;>
          exact outcomeOf_bind fun _ => rfl
      | _ => rfl
    | symbol sign =>
      cases sign with
      | leftBrace =>
        exact placelessAt_of_descend (fun _ _ => rfl) fun rules hr => (h rules hr).object rest
      | leftBracket =>
        exact placelessAt_of_descend (fun _ _ => rfl) fun rules hr => (h rules hr).array rest
      | leftParen =>
        exact placelessAt_of_descend (fun _ _ => rfl) fun rules hr => (h rules hr).group rest
      | _ => rfl
    | _ => rfl

/-- Operands behind a minus sign are read independently of places. -/
theorem negated_placeless (h : ∀ rules ∈ inner, rules.Placeless) : Placeless (negated inner) := by
  intro rest
  cases inner with
  | none => rfl
  | some rules =>
    refine (((h rules rfl).unary rest).map (f := .negate)).of_eq ?_ ?_ <;>
      exact outcomeOf_map fun _ => ⟨rfl, rfl⟩

/-- Operands with their signs are read independently of places. -/
theorem unary_placeless (h : ∀ rules ∈ inner, rules.Placeless) : Placeless (unary inner) := by
  intro input
  obtain hminus | ⟨span, rest, rfl⟩ := notBefore_or_eq_cons (.symbol .minus) input
  · refine (primary_placeless h input).of_eq ?_ ?_
    · exact congrArg outcomeOf (unary_of_notBefore hminus)
    · exact congrArg outcomeOf (unary_of_notBefore (notBefore_unplaced hminus))
  · obtain hgreatest | ⟨span', after, rfl⟩ :=
      notBefore_or_eq_cons (.integer Numeral.greatestInteger) rest
    · refine (negated_placeless h rest).of_eq ?_ ?_
      · exact congrArg outcomeOf (unary_of_minus span hgreatest)
      · exact congrArg outcomeOf (unary_of_minus ⟨0, 0⟩ (notBefore_unplaced hgreatest))
    · exact .stop (outcomeOf_unary_least span span' after)
        (outcomeOf_unary_least ⟨0, 0⟩ ⟨0, 0⟩ (unplaced after))

/-- Chains of operators are read independently of places if their operands are. -/
theorem chain_placeless (h : Placeless rule) (least : Nat) (left : Node) :
    Placeless (chain rule least left) := by
  intro input
  have hstop {least : Nat} {left : Node} {input : List Token}
      (hstop : NotBefore (BindsTightly least) (kinds input)) :
      PlacelessAt (fun input => outcomeOf (chain rule least left input)) input := by
    exact .stop (outcomeOf_chain_of_not_bindsTightly hstop)
      (outcomeOf_chain_of_not_bindsTightly (notBefore_unplaced hstop))
  induction least, left, input using chain.induct with
  | case1 => exact hstop (notBefore_nil _)
  | case2 least left token rest hoperator =>
    exact hstop (notBefore_cons.mpr (not_bindsTightly_of_operator? hoperator _))
  | case3 least left token rest operator hoperator hlt =>
    exact hstop (notBefore_cons.mpr (not_bindsTightly_of_lt hoperator hlt))
  | case4 least left token rest operator hoperator hle ih₁ ih₂ =>
    refine PlacelessAt.of_eq (.andThen (h rest) fun value after hvalue => ?_)
      (outcomeOf_chain_of_operator hoperator hle rest)
      (outcomeOf_chain_of_operator (by exact hoperator) hle (unplaced rest))
    obtain ⟨first, -, rfl, rfl⟩ := exists_parsed_of_outcomeOf hvalue
    refine (ih₁ first).andThen fun value after hvalue => ?_
    obtain ⟨right, -, rfl, rfl⟩ := exists_parsed_of_outcomeOf hvalue
    exact ih₂ first right

/-- Expressions of one precedence are read independently of places if their operands are. -/
theorem binary_placeless (h : Placeless rule) (least : Nat) : Placeless (binary rule least) := by
  intro input
  refine PlacelessAt.of_eq (.andThen (h input) fun first rest _ => ?_)
    (outcomeOf_binary least input) (outcomeOf_binary least (unplaced input))
  exact chain_placeless h least first rest

/-- Expressions are read independently of places if the rules one level down are. -/
theorem expression_placeless (h : ∀ rules ∈ inner, rules.Placeless) :
    Placeless (expressionAround inner) :=
  binary_placeless (unary_placeless h) 1

/-- Values are read independently of places if the rules one level down are. -/
theorem value_placeless (h : ∀ rules ∈ inner, rules.Placeless) :
    Placeless (value inner (expressionAround inner)) := by
  intro input
  obtain harrow | ⟨span, rest, rfl⟩ := notBefore_or_eq_cons (.symbol .arrow) input
  · refine (expression_placeless h input).of_eq ?_ ?_
    · exact congrArg outcomeOf (value_of_notBefore harrow)
    · exact congrArg outcomeOf (value_of_notBefore (notBefore_unplaced harrow))
  · cases inner with
    | none => rfl
    | some rules =>
      obtain hbrace | ⟨span', body, rfl⟩ := notBefore_or_eq_cons (.symbol .leftBrace) rest
      · exact .stop (outcomeOf_value_unopened span hbrace)
          (outcomeOf_value_unopened ⟨0, 0⟩ (notBefore_unplaced hbrace))
      · exact ((h rules rfl).block body).of_eq (outcomeOf_value_block span span' body)
          (outcomeOf_value_block ⟨0, 0⟩ ⟨0, 0⟩ (unplaced body))

/-- Separators in front change nothing. -/
theorem placelessAt_of_skip {α : Type} {reader : Reader α} {sign : Symbol} {input : List Token}
    (hsign : ∀ span other, reader (⟨.symbol sign, span⟩ :: other) = reader other)
    (h : PlacelessAt reader (skip sign input)) : PlacelessAt reader input := by
  induction input with
  | nil => exact h
  | cons token rest ih =>
    by_cases hkind : token.kind = .symbol sign
    · obtain ⟨kind, span⟩ := token
      obtain rfl : kind = _ := hkind
      rw [skip_cons_self] at h
      exact (ih h).of_eq (hsign span rest) (hsign ⟨0, 0⟩ (unplaced rest))
    · rwa [skip_cons_of_ne hkind] at h

/-- Members are read independently of places if their values are. -/
theorem members_placeless (h : Placeless rule) : Placeless (members rule) := by
  intro input
  induction input using members.induct with
  | case1 input _ span rest hs =>
    apply placelessAt_of_skip outcomeOf_members_comma
    rw [hs]
    exact .stop (outcomeOf_members_close span rest)
      (outcomeOf_members_close ⟨0, 0⟩ (unplaced rest))
  | case2 input _ raw span span' rest hs ih =>
    apply placelessAt_of_skip outcomeOf_members_comma
    rw [hs]
    refine PlacelessAt.of_eq (.andThen (h rest) fun value after hvalue => ?_)
      (outcomeOf_members_member raw span span' rest)
      (outcomeOf_members_member raw ⟨0, 0⟩ ⟨0, 0⟩ (unplaced rest))
    obtain ⟨first, -, rfl, rfl⟩ := exists_parsed_of_outcomeOf hvalue
    exact (ih first).map
  | case3 input _ raw span found hcolon hs =>
    apply placelessAt_of_skip outcomeOf_members_comma
    rw [hs]
    have hfound := notBefore_of_forall_ne hcolon
    exact .stop (outcomeOf_members_name raw span hfound)
      (outcomeOf_members_name raw ⟨0, 0⟩ (notBefore_unplaced hfound))
  | case4 input _ hbrace hcolon hname =>
    apply placelessAt_of_skip outcomeOf_members_comma
    cases hs : skip .comma input with
    | nil => exact .stop (outcomeOf_members []) (outcomeOf_members [])
    | cons token rest =>
      rw [hs] at hbrace hname
      have hcomma := kind_ne_of_skip hs
      have hstray (span : Span) (rest : List Token) :
          outcomeOf (members rule (⟨token.kind, span⟩ :: rest)) =
            .fail (.expected .memberOrBrace) (⟨token.kind, span⟩ :: rest) := by
        apply outcomeOf_members_stray
        · exact hcomma
        · exact fun hkind => hbrace token.span _ (by rw [← hkind])
        · exact fun raw hkind => hname raw token.span _ (by rw [← hkind])
      exact .stop (hstray token.span rest) (hstray ⟨0, 0⟩ (unplaced rest))

/-- Parts are read independently of places if each of them and what follows it is. -/
theorem ReadsParts.placeless {α β : Type} {separator closing : Symbol} {fault : ParseFault}
    {part : Rule β} {after : β → Reader (List α)} {list : Rule (List α)}
    (h : ReadsParts separator closing fault part after list) (hpart : Placeless part)
    (hafter : ∀ value rest, PlacelessAt (fun input => outcomeOf (list input)) rest →
      PlacelessAt (after value) rest) : Placeless list := by
  intro input
  induction hlength : input.length using Nat.strong_induction_on generalizing input with
  | h length ih =>
    apply placelessAt_of_skip h.separator_cons
    cases hs : skip separator input with
    | nil => exact .stop (h []) (h [])
    | cons token rest =>
      have hseparator := kind_ne_of_skip hs
      have hread (span : Span) (rest : List Token) :
          outcomeOf (list (⟨token.kind, span⟩ :: rest)) =
            if token.kind = .symbol closing then .read [] rest
            else (outcomeOf (part (⟨token.kind, span⟩ :: rest))).andThen after := by
        rw [h, skip_cons_of_ne]
        exact hseparator
      by_cases hkind : token.kind = .symbol closing
      · simp only [if_pos hkind] at hread
        exact .stop (hread token.span rest) (hread ⟨0, 0⟩ (unplaced rest))
      · simp only [if_neg hkind] at hread
        refine PlacelessAt.of_eq (.andThen (hpart (token :: rest)) fun value left hvalue => ?_)
          (hread token.span rest) (hread ⟨0, 0⟩ (unplaced rest))
        obtain ⟨parsed, -, -, rfl⟩ := exists_parsed_of_outcomeOf hvalue
        have hskip := length_skip_le separator input
        rw [hs] at hskip
        exact hafter _ _ (ih _ (hlength ▸ parsed.length_rest_lt.trans_le hskip) _ rfl)

/-- Elements are read independently of places if each of them is. -/
theorem elements_placeless (h : Placeless rule) : Placeless (elements rule) :=
  elements_readsParts.placeless h fun _ _ hrest => hrest.map

/-- Whether a statement ends does not depend on places. -/
theorem endsStatement_unplaced (rest : List Token) :
    endsStatement (unplaced rest) = endsStatement rest := by
  rw [Bool.eq_iff_iff, endsStatement_iff, endsStatement_iff, kinds_unplaced]

/-- The statements of a block are read independently of places if each of them is. -/
theorem statements_placeless (h : Placeless (statement rule)) : Placeless (statements rule) := by
  refine statements_readsParts.placeless h fun value rest hrest => ?_
  have hends := endsStatement_unplaced rest
  by_cases h : endsStatement rest
  · exact hrest.map.of_eq (if_pos h) (if_pos (hends ▸ h))
  · exact .stop (if_neg h) (if_neg (hends ▸ h))

/-- What follows a value that is returned is read independently of places. -/
theorem afterReturn_placelessAt (value : Node) (rest : List Token) :
    PlacelessAt (afterReturn value) rest := by
  obtain hsemicolon | ⟨span, rest, rfl⟩ := notBefore_or_eq_cons (.symbol .semicolon) rest
  · exact .stop (afterReturn_of_notBefore value hsemicolon)
      (afterReturn_of_notBefore value (notBefore_unplaced hsemicolon))
  · rfl

/-- Declarations are read independently of places if their expressions are. -/
theorem binding_placelessAt (h : Placeless rule) (span : Span) (rest : List Token) :
    PlacelessAt (fun input => outcomeOf (statement rule input))
      (⟨.keyword .var, span⟩ :: rest) := by
  cases rest with
  | nil => rfl
  | cons token rest =>
    obtain ⟨kind, span'⟩ := token
    cases kind with
    | identifier name =>
      obtain hassign | ⟨span'', rest, rfl⟩ := notBefore_or_eq_cons (.symbol .assign) rest
      · exact .stop (outcomeOf_statement_unassigned name span span' hassign)
          (outcomeOf_statement_unassigned name ⟨0, 0⟩ ⟨0, 0⟩ (notBefore_unplaced hassign))
      · exact (h rest).map.of_eq (outcomeOf_statement_binding name ⟨span, span', span''⟩ rest)
          (outcomeOf_statement_binding name ⟨⟨0, 0⟩, ⟨0, 0⟩, ⟨0, 0⟩⟩ (unplaced rest))
    | _ => rfl

/-- Statements are read independently of places if their expressions are. -/
theorem statement_placeless (h : Placeless rule) : Placeless (statement rule) := by
  intro input
  cases input with
  | nil => exact h []
  | cons token rest =>
    obtain ⟨kind, span⟩ := token
    by_cases hvar : kind = .keyword .var
    · subst hvar
      exact binding_placelessAt h span rest
    by_cases hreturn : kind = .keyword .return_
    · subst hreturn
      refine PlacelessAt.of_eq (.andThen (h rest) fun value rest _ => ?_)
        (outcomeOf_statement_return span rest) (outcomeOf_statement_return ⟨0, 0⟩ (unplaced rest))
      exact afterReturn_placelessAt value rest
    by_cases hname : ∃ name, kind = .identifier name
    · obtain ⟨name, rfl⟩ := hname
      obtain hassign | ⟨span', rest, rfl⟩ := notBefore_or_eq_cons (.symbol .assign) rest
      · exact (h (⟨.identifier name, span⟩ :: rest)).of_eq
          (outcomeOf_statement_name name span hassign)
          (outcomeOf_statement_name name ⟨0, 0⟩ (notBefore_unplaced hassign))
      · exact (h rest).map.of_eq (outcomeOf_statement_assignment name ⟨span, span'⟩ rest)
          (outcomeOf_statement_assignment name ⟨⟨0, 0⟩, ⟨0, 0⟩⟩ (unplaced rest))
    · have hexpression (span : Span) (rest : List Token) :
          outcomeOf (statement rule (⟨kind, span⟩ :: rest)) =
            outcomeOf (rule (⟨kind, span⟩ :: rest)) :=
        outcomeOf_statement_expression hvar hreturn (not_exists.mp hname) rest
      exact (h (⟨kind, span⟩ :: rest)).of_eq (hexpression span rest)
        (hexpression ⟨0, 0⟩ (unplaced rest))

/-- Groups are read independently of places if their expressions are. -/
theorem group_placeless (h : Placeless rule) : Placeless (group rule) := by
  intro input
  refine PlacelessAt.of_eq (.andThen (h input) fun value rest _ => ?_) (outcomeOf_group input)
    (outcomeOf_group (unplaced input))
  obtain hparen | ⟨span, rest, rfl⟩ := notBefore_or_eq_cons (.symbol .rightParen) rest
  · exact .stop (afterGrouped_of_notBefore value hparen)
      (afterGrouped_of_notBefore value (notBefore_unplaced hparen))
  · rfl

end Grammar

namespace Rules

/-- The rules of a level ignore places if those of the level inside do. -/
theorem placeless_level {inner : Option Rules} (h : ∀ rules ∈ inner, rules.Placeless) :
    (level inner).Placeless where
  unary := Grammar.unary_placeless h
  object := fun input => (Grammar.members_placeless (Grammar.value_placeless h) input).map.of_eq
    (outcomeOf_map fun _ => ⟨rfl, rfl⟩) (outcomeOf_map fun _ => ⟨rfl, rfl⟩)
  array := fun input => (Grammar.elements_placeless (Grammar.value_placeless h) input).map.of_eq
    (outcomeOf_map fun _ => ⟨rfl, rfl⟩) (outcomeOf_map fun _ => ⟨rfl, rfl⟩)
  block := fun input =>
    (Grammar.statements_placeless (Grammar.statement_placeless
      (Grammar.expression_placeless h)) input).map.of_eq
    (outcomeOf_map fun _ => ⟨rfl, rfl⟩) (outcomeOf_map fun _ => ⟨rfl, rfl⟩)
  group := Grammar.group_placeless (Grammar.expression_placeless h)

/-- The rules of every level ignore places. -/
theorem placeless_nested (levels : Nat) : (nested levels).Placeless := by
  induction levels with
  | zero => exact placeless_level fun _ h => nomatch h
  | succ levels ih =>
    apply placeless_level
    intro rules h
    cases h
    exact ih

end Rules

namespace Grammar

/-- Documents are read independently of places. -/
theorem root_placeless : Placeless root := by
  have hlevel := Rules.placeless_nested nestingLimit
  intro input
  obtain hbrace | ⟨span, rest, rfl⟩ := notBefore_or_eq_cons (.symbol .leftBrace) input
  · obtain hbracket | ⟨span, rest, rfl⟩ := notBefore_or_eq_cons (.symbol .leftBracket) input
    · refine .stop (outcomeOf_root_of_notBefore hbrace hbracket)
        (outcomeOf_root_of_notBefore ?_ ?_)
      · rwa [kinds_unplaced]
      · rwa [kinds_unplaced]
    · exact (hlevel.array rest).of_eq (outcomeOf_widen _) (outcomeOf_widen _)
  · exact (hlevel.object rest).of_eq (outcomeOf_widen _) (outcomeOf_widen _)

/-- A document of the same kinds of tokens has the same tree or the same failure. -/
theorem document_unplaced (input : List Token) :
    document (unplaced input) =
      (document input).mapError fun failure => ⟨failure.fault, unplaced failure.rest⟩ := by
  have hroot : outcomeOf (root (unplaced input)) = (outcomeOf (root input)).unplaced :=
    root_placeless input
  rcases houtcome : outcomeOf (root input) with ⟨fault | tree, rest⟩
  · rw [houtcome] at hroot
    rw [document_of_fail houtcome, document_of_fail hroot]
    rfl
  · rw [houtcome] at hroot
    cases rest with
    | nil =>
      rw [document_of_read houtcome, document_of_read hroot]
      rfl
    | cons token rest =>
      rw [document_of_read_cons houtcome, document_of_read_cons hroot]
      rfl

end Grammar

/-- The same error at no position in particular. -/
def ParseError.unplaced (error : ParseError) : ParseError := ⟨error.fault, error.found, 0⟩

/-- A failure among tokens at no place is an error at no position. -/
theorem toError_unplaced (failure : Failure) (endPosition : Nat) :
    Failure.toError ⟨failure.fault, unplaced failure.rest⟩ 0 =
      (failure.toError endPosition).unplaced := by
  obtain ⟨fault, rest⟩ := failure
  cases rest <;> rfl

/-- What is parsed is fixed by the kinds of the tokens before the end, but for the position of an
error. -/
theorem mapError_parse (tokens : List Token) :
    (parse tokens).mapError ParseError.unplaced =
      (Grammar.document (unplaced (beforeEnd tokens))).mapError (Failure.toError · 0) := by
  rw [Grammar.document_unplaced, parse]
  cases Grammar.document (beforeEnd tokens) with
  | ok root => rfl
  | error failure => exact congrArg Except.error (toError_unplaced failure _).symm

/-- The kinds before the end are those before the first end of input. -/
theorem kinds_beforeEnd (tokens : List Token) :
    kinds (beforeEnd tokens) = (kinds tokens).takeWhile (· ≠ .endOfInput) := by
  rw [kinds, kinds, List.takeWhile_map]
  rfl

/-- Tokens of the same kinds spell the same tree, or have the same error but for its position. -/
theorem mapError_parse_congr {tokens other : List Token} (h : kinds tokens = kinds other) :
    (parse tokens).mapError ParseError.unplaced = (parse other).mapError ParseError.unplaced := by
  rw [mapError_parse, mapError_parse, unplaced_eq_map_kinds, unplaced_eq_map_kinds,
    kinds_beforeEnd, kinds_beforeEnd, h]

end JsonTemplate
