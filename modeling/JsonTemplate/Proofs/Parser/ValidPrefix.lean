import JsonTemplate.Proofs.Parser.StopsInTime

/-!
# Rules stop at the first impossible token

Every rule of the grammar stops in time: its tokens up to the offending one can be completed to
its phrase, and no token behind the offending one is looked at. The lookahead at an assignment
after a name is no exception, because a name that starts an expression is taken whatever follows
it. A minus sign at the last level can still be completed, by the magnitude of the least integer
and by nothing else.
-/

namespace JsonTemplate

/-- The rules of a level that stop in time. -/
structure Rules.InTime (rules : Rules) : Prop where
  unary : JsonTemplate.InTime EndsExpression rules.unary
  object : JsonTemplate.InTime Anything rules.object
  array : JsonTemplate.InTime Anything rules.array
  block : JsonTemplate.InTime Anything rules.block
  group : JsonTemplate.InTime Anything rules.group

namespace Grammar

variable {inner : Option Rules} {rule : Rule Node}

/-- There is no accessor where an expression ends. -/
theorem outcomeOf_accessors_of_stop {rest : List Token} (h : EndsExpression rest) :
    outcomeOf (accessors rest) = .read [] rest := by
  rw [accessors_of_stop h.1]
  rfl

/-- A dot and a name are one accessor. -/
theorem outcomeOf_accessors_field {name : Token} {field : String}
    (h : fieldName? name.kind = some field) (span : Span) (rest : List Token) :
    outcomeOf (accessors (⟨.symbol .dot, span⟩ :: name :: rest)) =
      (outcomeOf (accessors rest)).map (.field field :: ·) := by
  simp only [accessors, h]
  exact outcomeOf_bind fun _ => rfl

/-- Brackets around an index are one accessor. -/
theorem outcomeOf_accessors_index {index : Token} {accessor : Accessor}
    (h : indexAccessor? index.kind = some accessor) (span span' : Span) (rest : List Token) :
    outcomeOf (accessors
      (⟨.symbol .leftBracket, span⟩ :: index :: ⟨.symbol .rightBracket, span'⟩ :: rest)) =
      (outcomeOf (accessors rest)).map (accessor :: ·) := by
  simp only [accessors, h]
  exact outcomeOf_bind fun _ => rfl

/-- A dot is followed by a name. -/
theorem outcomeOf_accessors_unnamed {name : Token} (h : fieldName? name.kind = none) (span : Span)
    (rest : List Token) :
    outcomeOf (accessors (⟨.symbol .dot, span⟩ :: name :: rest)) =
      .fail (.expected .fieldName) (name :: rest) := by
  simp only [accessors, h]
  rfl

/-- An opening bracket is followed by an index. -/
theorem outcomeOf_accessors_unindexed {index : Token} (h : indexAccessor? index.kind = none)
    (span : Span) (rest : List Token) :
    outcomeOf (accessors (⟨.symbol .leftBracket, span⟩ :: index :: rest)) =
      .fail (.expected .index) (index :: rest) := by
  simp only [accessors, h]
  rfl

/-- An index is followed by a closing bracket. -/
theorem outcomeOf_accessors_unclosed {index : Token} {accessor : Accessor}
    (h : indexAccessor? index.kind = some accessor) (span : Span) {rest : List Token}
    (hclose : NotBefore (.symbol .rightBracket = ·) (kinds rest)) :
    outcomeOf (accessors (⟨.symbol .leftBracket, span⟩ :: index :: rest)) =
      .fail (.expected .closingBracket) rest := by
  rw [accessors, h]
  dsimp only
  split
  · exact absurd rfl (notBefore_cons.mp hclose)
  · rfl

/-- A token that neither continues a path nor may follow one is at fault. -/
theorem outcomeOf_accessors_stray {token : Token} (h : isStray token.kind) (rest : List Token) :
    outcomeOf (accessors (token :: rest)) = .fail (.expected .accessor) (token :: rest) := by
  rw [accessors, if_pos h]
  · rfl
  all_goals grind [isStray]

/-- Tokens that are left at once extend no path. -/
theorem notBefore_of_accessors {input : List Token}
    (h : outcomeOf (accessors input) = .read [] input) :
    NotBefore ExtendsPath (kinds input) := by
  obtain ⟨parsed, hparsed, hvalue, hrest⟩ := exists_parsed_of_outcomeOf h
  have hpath := accessors_sound input
  rw [hparsed] at hpath
  change PathDerives parsed.value (kinds input) (kinds parsed.rest) at hpath
  rw [hvalue, hrest] at hpath
  cases hpath
  assumption

/-- Paths stop in time. -/
theorem accessors_inTime : InTime EndsExpression accessors := by
  have hfield (span : Span) {other : List Token} (hother : EndsExpression other) :
      outcomeOf (accessors (⟨.symbol .dot, span⟩ :: (TokenKind.identifier "").token :: other)) =
        .read [.field ""] other := by
    rw [outcomeOf_accessors_field rfl, outcomeOf_accessors_of_stop hother]
    rfl
  have hindex (span : Span) {other : List Token} (hother : EndsExpression other) :
      outcomeOf (accessors (⟨.symbol .leftBracket, span⟩ :: (TokenKind.integer 0).token ::
        (TokenKind.symbol .rightBracket).token :: other)) = .read [.index 0] other := by
    refine (outcomeOf_accessors_index rfl span _ other).trans ?_
    rw [outcomeOf_accessors_of_stop hother]
    rfl
  intro input
  induction input using accessors.induct with
  | case1 span =>
    refine .fails [_] [] (.expected .fieldName) [_] _ (forall_head?_iff.mpr ?_)
      fun other => hfield span
    rw [List.append_nil, accessors]
    rfl
  | case2 span name rest hname =>
    exact .fails [_] (name :: rest) (.expected .fieldName) [_] _
      (forall_head?_iff.mpr (outcomeOf_accessors_unnamed hname span)) fun other => hfield span
  | case3 span name rest field hname ih =>
    exact .prepend [⟨.symbol .dot, span⟩, name] (outcomeOf_accessors_field hname span) ih.map
  | case4 span =>
    refine .fails [_] [] (.expected .index) [_, _] _ (forall_head?_iff.mpr ?_)
      fun other => hindex span
    rw [List.append_nil, accessors]
    rfl
  | case5 span index rest haccessor =>
    exact .fails [_] (index :: rest) (.expected .index) [_, _] _
      (forall_head?_iff.mpr (outcomeOf_accessors_unindexed haccessor span)) fun other => hindex span
  | case6 span index accessor haccessor span' rest ih =>
    exact .prepend [⟨.symbol .leftBracket, span⟩, index, ⟨.symbol .rightBracket, span'⟩]
      (outcomeOf_accessors_index haccessor span span') ih.map
  | case7 span index accessor haccessor found hclose =>
    have hfound := notBefore_of_forall_ne hclose
    refine .fails [_, _] found _ [(TokenKind.symbol .rightBracket).token] [accessor]
      (fun other hother => outcomeOf_accessors_unclosed haccessor span ?_) fun other hother => ?_
    · exact (notBefore_kinds_congr hother).mpr hfound
    · refine (outcomeOf_accessors_index haccessor span _ other).trans ?_
      rw [outcomeOf_accessors_of_stop hother]
      rfl
  | case8 token rest hdot₁ hdot hbracket₁ hbracket hstray =>
    exact .refuse _ [] [] (forall_head?_iff.mpr (outcomeOf_accessors_stray hstray))
      fun other => outcomeOf_accessors_of_stop
  | case9 token rest hdot₁ hdot hbracket₁ hbracket hstray =>
    have hstop : NotBefore ExtendsPath (kinds (token :: rest)) := by
      refine notBefore_of_accessors ?_
      rw [accessors, if_neg hstray]
      · rfl
      all_goals assumption
    refine .reads [] (token :: rest) [] fun other hother => ?_
    rw [List.nil_append, accessors_of_stop]
    · rfl
    · exact hother.elim (fun hhead => (notBefore_kinds_congr hhead).mpr hstop) And.left
  | case10 =>
    refine .reads [] [] [] fun other hother => ?_
    rw [List.nil_append, accessors_of_stop]
    · rfl
    · exact hother.elim (fun hhead => (notBefore_kinds_congr hhead).mpr (notBefore_nil _)) And.left

/-- A token that starts no operand stands where a value could. -/
theorem stopsInTime_of_primary_eq {input : List Token} (fault : ParseFault)
    (h : ∀ other, other.head? = input.head? →
      outcomeOf (primary inner other) = .fail fault other) :
    StopsInTime EndsExpression (fun input => outcomeOf (primary inner input)) input :=
  .refuse fault [(TokenKind.keyword .null).token] .null h fun _ _ => rfl

/-- An opening sign is at fault where nothing may be nested, and taken elsewhere. -/
theorem stopsInTime_of_descend {token : Token} {rest : List Token} {rule : Rules → Rule Node}
    (hread : ∀ other, primary inner (token :: other) =
      descend inner (token :: other) fun rules =>
        (·.widen (length_le_succ other)) <$> rule rules other)
    (h : ∀ rules ∈ inner, StopsInTime Anything (fun input => outcomeOf (rule rules input)) rest) :
    StopsInTime EndsExpression (fun input => outcomeOf (primary inner input)) (token :: rest) := by
  cases inner with
  | none =>
    refine stopsInTime_of_primary_eq .tooDeep (forall_head?_iff.mpr fun other => ?_)
    rw [hread]
    rfl
  | some rules =>
    refine .prepend [token] (fun other => ?_) ((h rules rfl).mono fun _ _ => trivial)
    dsimp only [List.singleton_append]
    rw [hread]
    exact outcomeOf_widen _

/-- A magnitude in range is an integer. -/
theorem outcomeOf_primary_integer {magnitude : Nat} {value : Int64}
    (h : integer? magnitude = some value) (span : Span) (rest : List Token) :
    outcomeOf (primary inner (⟨.integer magnitude, span⟩ :: rest)) =
      .read (.integer value) rest := by
  simp only [primary, h]
  rfl

/-- A magnitude out of range is at fault. -/
theorem outcomeOf_primary_tooLarge {magnitude : Nat} (h : integer? magnitude = none) (span : Span)
    (rest : List Token) :
    outcomeOf (primary inner (⟨.integer magnitude, span⟩ :: rest)) =
      .fail (.integerTooLarge magnitude) (⟨.integer magnitude, span⟩ :: rest) := by
  simp only [primary, h]
  rfl

/-- Operands without signs stop in time. -/
theorem primary_inTime (h : ∀ rules ∈ inner, rules.InTime) :
    InTime EndsExpression (primary inner) := by
  intro input
  cases input with
  | nil => exact stopsInTime_of_primary_eq (.expected .expression) (forall_head?_iff.mpr rfl)
  | cons token rest =>
    obtain ⟨kind, span⟩ := token
    cases kind with
    | integer magnitude =>
      cases hvalue : integer? magnitude with
      | some value => exact .take (.integer value) (outcomeOf_primary_integer hvalue span)
      | none =>
        exact stopsInTime_of_primary_eq (.integerTooLarge magnitude)
          (forall_head?_iff.mpr (outcomeOf_primary_tooLarge hvalue span))
    | keyword word =>
      cases word with
      | this =>
        refine .prepend [_] (fun other => ?_) ((accessors_inTime rest).map (f := .this))
        exact outcomeOf_bind fun _ => rfl
      | true_ | false_ | null => exact .take _ fun _ => rfl
      | _ => exact stopsInTime_of_primary_eq _ (forall_head?_iff.mpr fun _ => rfl)
    | symbol sign =>
      cases sign with
      | leftBrace =>
        exact stopsInTime_of_descend (fun _ => rfl) fun rules hr => (h rules hr).object rest
      | leftBracket =>
        exact stopsInTime_of_descend (fun _ => rfl) fun rules hr => (h rules hr).array rest
      | leftParen =>
        exact stopsInTime_of_descend (fun _ => rfl) fun rules hr => (h rules hr).group rest
      | _ => exact stopsInTime_of_primary_eq _ (forall_head?_iff.mpr fun _ => rfl)
    | endOfInput =>
      exact stopsInTime_of_primary_eq (.expected .expression) (forall_head?_iff.mpr fun _ => rfl)
    | _ => exact .take _ fun _ => rfl

/-- Without a minus sign, an operand has no signs. -/
theorem unary_of_notBefore {input : List Token}
    (h : NotBefore (.symbol .minus = ·) (kinds input)) :
    unary inner input = primary inner input := by
  unfold unary
  split
  · exact absurd rfl (notBefore_cons.mp h)
  · rfl

/-- A minus sign negates, unless the magnitude of the least integer follows. -/
theorem unary_of_minus {rest : List Token} (span : Span)
    (h : NotBefore (.integer Numeral.greatestInteger = ·) (kinds rest)) :
    unary inner (⟨.symbol .minus, span⟩ :: rest) = negated inner rest := by
  unfold unary
  dsimp only
  split
  · rw [if_neg fun hmagnitude => notBefore_cons.mp h (by rw [hmagnitude])]
  · rfl

/-- A minus sign and the magnitude of the least integer are that integer. -/
theorem outcomeOf_unary_least (span span' : Span) (rest : List Token) :
    outcomeOf (unary inner
      (⟨.symbol .minus, span⟩ :: ⟨.integer Numeral.greatestInteger, span'⟩ :: rest)) =
        .read (.integer Int64.minValue) rest := rfl

/-- A minus sign at the last level is followed by the magnitude of the least integer, if by
anything. -/
theorem minus_inTime (h : ∀ rules ∈ inner, rules.InTime) (span : Span) (rest : List Token) :
    StopsInTime EndsExpression (fun input => outcomeOf (unary inner input))
      (⟨.symbol .minus, span⟩ :: rest) := by
  obtain hgreatest | ⟨span', after, rfl⟩ :=
    notBefore_or_eq_cons (.integer Numeral.greatestInteger) rest
  · have hgo (other : List Token) (hother : other.head? = rest.head?) :
        unary inner (⟨.symbol .minus, span⟩ :: other) = negated inner other :=
      unary_of_minus span ((notBefore_kinds_congr hother).mpr hgreatest)
    cases inner with
    | none =>
      refine .fails [_] rest .tooDeep [_] (.integer Int64.minValue) (fun other hother => ?_)
        fun other _ => outcomeOf_unary_least span ⟨0, 0⟩ other
      rw [List.singleton_append, hgo other hother]
      rfl
    | some rules =>
      refine .after [_] (fun other hother => ?_) (((h rules rfl).unary rest).map (f := .negate))
        ⟨[(TokenKind.integer Numeral.greatestInteger).token], _,
          fun other _ => outcomeOf_unary_least span _ other⟩
        fun value hvalue => ?_
      · dsimp only [List.singleton_append]
        rw [hgo other hother]
        exact outcomeOf_map fun _ => ⟨rfl, rfl⟩
      · obtain ⟨operand, hoperand⟩ := ParseOutcome.exists_eq_read_of_map hvalue
        exact (outcomeOf_rule_ne _ _ _ hoperand).elim
  · exact .reads [⟨.symbol .minus, span⟩, ⟨.integer Numeral.greatestInteger, span'⟩] after _
      fun other _ => outcomeOf_unary_least span span' other

/-- Operands with their signs stop in time. -/
theorem unary_inTime (h : ∀ rules ∈ inner, rules.InTime) :
    InTime EndsExpression (unary inner) := by
  intro input
  obtain hminus | ⟨span, rest, rfl⟩ := notBefore_or_eq_cons (.symbol .minus) input
  · refine .after [] (fun other hother => ?_) (primary_inTime h input)
      ⟨[(TokenKind.keyword .null).token], .null, fun _ _ => rfl⟩
      fun value hvalue => absurd hvalue (outcomeOf_rule_ne _ value input)
    dsimp only [List.nil_append]
    rw [unary_of_notBefore ((notBefore_kinds_congr hother).mpr hminus)]
  · exact minus_inTime h span rest

/-- A chain ends before a token that does not bind tightly enough. -/
theorem outcomeOf_chain_of_not_bindsTightly {least : Nat} {left : Node} {rest : List Token}
    (h : NotBefore (BindsTightly least) (kinds rest)) :
    outcomeOf (chain rule least left rest) = .read left rest := by
  rw [chain_of_not_bindsTightly h]
  rfl

/-- A chain ends where an expression ends. -/
theorem outcomeOf_chain_of_ends {rest : List Token} (h : EndsExpression rest) (least : Nat)
    (left : Node) : outcomeOf (chain rule least left rest) = .read left rest :=
  outcomeOf_chain_of_not_bindsTightly (h.2.mono fun _ => isOperator_of_bindsTightly)

/-- An operator that binds tightly enough takes its right operand, and the chain goes on from
there. -/
theorem outcomeOf_chain_of_operator {least : Nat} {left : Node} {token : Token}
    {operator : Operator} (hoperator : operator? token.kind = some operator)
    (hle : ¬operator.precedence < least) (rest : List Token) :
    outcomeOf (chain rule least left (token :: rest)) =
      (outcomeOf (rule rest)).andThen fun first after =>
        (outcomeOf (chain rule (operator.precedence + 1) first after)).andThen fun right after =>
          outcomeOf (chain rule least (.binary operator left right) after) := by
  rw [chain, hoperator]
  dsimp only
  rw [if_neg hle]
  refine outcomeOf_bind fun first => outcomeOf_bind fun right => ?_
  exact outcomeOf_widen _

/-- A chain stops in time where nothing binds tightly enough. -/
theorem stopsInTime_chain_of_not_bindsTightly {least : Nat} {left : Node} {input : List Token}
    (h : NotBefore (BindsTightly least) (kinds input)) :
    StopsInTime EndsExpression (fun input => outcomeOf (chain rule least left input)) input :=
  .reads [] input left fun _ hother => hother.elim
    (fun hhead => outcomeOf_chain_of_not_bindsTightly ((notBefore_kinds_congr hhead).mpr h))
    (fun hends => outcomeOf_chain_of_ends hends least left)

/-- Chains of operators stop in time if their operands do. -/
theorem chain_inTime (h : InTime EndsExpression rule) (least : Nat) (left : Node) :
    InTime EndsExpression (chain rule least left) := by
  intro input
  induction least, left, input using chain.induct with
  | case1 => exact stopsInTime_chain_of_not_bindsTightly (notBefore_nil _)
  | case2 least left token rest hoperator =>
    exact stopsInTime_chain_of_not_bindsTightly
      (notBefore_cons.mpr (not_bindsTightly_of_operator? hoperator _))
  | case3 least left token rest operator hoperator hlt =>
    exact stopsInTime_chain_of_not_bindsTightly
      (notBefore_cons.mpr (not_bindsTightly_of_lt hoperator hlt))
  | case4 least left token rest operator hoperator hle ih₁ ih₂ =>
    refine .prepend [token] (outcomeOf_chain_of_operator hoperator hle) ?_
    refine (h rest).andThen (fun value after hvalue => ?_) (fun first => ?_) fun _ _ _ _ _ => id
    · obtain ⟨first, -, rfl, rfl⟩ := exists_parsed_of_outcomeOf hvalue
      refine (ih₁ first).andThen (fun value after hvalue => ?_) (fun right => ?_)
        fun _ _ _ _ _ => id
      · obtain ⟨right, -, rfl, rfl⟩ := exists_parsed_of_outcomeOf hvalue
        exact ih₂ first right
      · exact ⟨[], _, fun other hother => ⟨hother, outcomeOf_chain_of_ends hother _ _⟩⟩
    · refine ⟨[], .binary operator left first, fun other hother => ⟨hother, ?_⟩⟩
      rw [List.nil_append, outcomeOf_chain_of_ends hother]
      exact outcomeOf_chain_of_ends hother _ _

/-- An expression is an operand and the chain behind it. -/
theorem outcomeOf_binary (least : Nat) (input : List Token) :
    outcomeOf (binary rule least input) =
      (outcomeOf (rule input)).andThen fun first after =>
        outcomeOf (chain rule least first after) :=
  outcomeOf_bind fun _ => outcomeOf_widen _

/-- Expressions of one precedence stop in time if their operands do. -/
theorem binary_inTime (h : InTime EndsExpression rule) (least : Nat) :
    InTime EndsExpression (binary rule least) := by
  intro input
  refine .prepend [] (outcomeOf_binary least) ?_
  refine (h input).andThen (fun value rest _ => chain_inTime h least value rest) (fun first => ?_)
    fun _ _ _ _ _ => id
  exact ⟨[], first, fun other hother => ⟨hother, outcomeOf_chain_of_ends hother _ _⟩⟩

/-- Expressions of the level around the given rules. -/
def expressionAround (inner : Option Rules) : Rule Node := binary (unary inner) 1

/-- Expressions stop in time if the rules one level down do. -/
theorem expression_inTime (h : ∀ rules ∈ inner, rules.InTime) :
    InTime EndsExpression (expressionAround inner) :=
  binary_inTime (unary_inTime h) 1

/-- The word `null` is an expression where one ends behind it. -/
theorem outcomeOf_expression_null {rest : List Token} (h : EndsExpression rest) :
    outcomeOf (expressionAround inner ((TokenKind.keyword .null).token :: rest)) =
      .read .null rest :=
  (outcomeOf_binary 1 _).trans (outcomeOf_chain_of_ends h 1 .null)

/-- A name is taken as an operand whatever follows it. -/
theorem outcomeOf_expression_name (name : String) (span : Span) (rest : List Token) :
    outcomeOf (expressionAround inner (⟨.identifier name, span⟩ :: rest)) =
      outcomeOf (chain (unary inner) 1 (.lookup name) rest) :=
  outcomeOf_binary 1 _

/-- Without an arrow, a value is an expression. -/
theorem value_of_notBefore {input : List Token}
    (h : NotBefore (.symbol .arrow = ·) (kinds input)) : value inner rule input = rule input := by
  unfold value
  split
  · rw [if_neg (Ne.symm (notBefore_cons.mp h))]
  · rfl

/-- An arrow and a brace open a block. -/
theorem outcomeOf_value_block {rules : Rules} (span span' : Span) (body : List Token) :
    outcomeOf (value (some rules) rule
      (⟨.symbol .arrow, span⟩ :: ⟨.symbol .leftBrace, span'⟩ :: body)) =
      outcomeOf (rules.block body) :=
  outcomeOf_widen _

/-- An arrow is followed by a brace. -/
theorem outcomeOf_value_unopened {rules : Rules} {rest : List Token} (span : Span)
    (h : NotBefore (.symbol .leftBrace = ·) (kinds rest)) :
    outcomeOf (value (some rules) rule (⟨.symbol .arrow, span⟩ :: rest)) =
      .fail (.expected .braceAfterArrow) rest := by
  rw [value, if_pos rfl]
  unfold descend
  dsimp only
  split
  · exact absurd rfl (notBefore_cons.mp h)
  · rfl

/-- Values stop in time if the rules one level down do. -/
theorem value_inTime (h : ∀ rules ∈ inner, rules.InTime) :
    InTime EndsExpression (value inner (expressionAround inner)) := by
  intro input
  obtain harrow | ⟨span, rest, rfl⟩ := notBefore_or_eq_cons (.symbol .arrow) input
  · refine .after [] (fun other hother => ?_) (expression_inTime h input)
      ⟨[_], .null, fun _ => outcomeOf_expression_null⟩
      fun value hvalue => absurd hvalue (outcomeOf_rule_ne _ value input)
    dsimp only [List.nil_append]
    rw [value_of_notBefore ((notBefore_kinds_congr hother).mpr harrow)]
  · cases inner with
    | none =>
      exact .refuse .tooDeep [_] .null (forall_head?_iff.mpr fun _ => rfl)
        fun _ => outcomeOf_expression_null
    | some rules =>
      have hblock := (h rules rfl).block
      obtain hbrace | ⟨span', body, rfl⟩ := notBefore_or_eq_cons (.symbol .leftBrace) rest
      · obtain ⟨more, block, hmore⟩ := hblock.exists_spelling
        refine .fails [⟨.symbol .arrow, span⟩] rest (.expected .braceAfterArrow)
          ((TokenKind.symbol .leftBrace).token :: more) block (fun other hother => ?_)
          fun other _ => ?_
        · exact outcomeOf_value_unopened span ((notBefore_kinds_congr hother).mpr hbrace)
        · rw [← hmore other trivial]
          exact outcomeOf_value_block span _ _
      · exact .prepend [⟨.symbol .arrow, span⟩, ⟨.symbol .leftBrace, span'⟩]
          (outcomeOf_value_block span span') ((hblock body).mono fun _ _ => trivial)

/-- No sign is left where it is skipped. -/
theorem kind_ne_of_skip {sign : Symbol} {input : List Token} {token : Token} {rest : List Token}
    (h : skip sign input = token :: rest) : token.kind ≠ .symbol sign := by
  have hstop := notBefore_dropWhile (fun token : Token => decide (token.kind = .symbol sign)) input
  rw [← skip, h, notBefore_cons] at hstop
  simpa using hstop

/-- Separators in front change nothing. -/
theorem stopsInTime_of_skip {α : Type} {follows : List Token → Prop}
    {reader : Reader α} {sign : Symbol} {input : List Token}
    (hsign : ∀ span other, reader (⟨.symbol sign, span⟩ :: other) = reader other)
    (h : StopsInTime follows reader (skip sign input)) : StopsInTime follows reader input := by
  induction input with
  | nil => exact h
  | cons token rest ih =>
    by_cases hkind : token.kind = .symbol sign
    · obtain ⟨kind, span⟩ := token
      obtain rfl : kind = _ := hkind
      rw [skip_cons_self] at h
      exact .prepend [_] (hsign span) (ih h)
    · rwa [skip_cons_of_ne hkind] at h

/-- The members of an object, by the tokens behind the commas that are ignored. -/
theorem outcomeOf_members (input : List Token) :
    outcomeOf (members rule input) =
      match skip .comma input with
      | ⟨.symbol .rightBrace, _⟩ :: rest => .read [] rest
      | ⟨.string raw, _⟩ :: ⟨.symbol .colon, _⟩ :: rest =>
        (outcomeOf (rule rest)).andThen fun value after =>
          (outcomeOf (members rule after)).map ((decodeString raw, value) :: ·)
      | ⟨.string _, _⟩ :: found => .fail (.expected .colonAfterName) found
      | found => .fail (.expected .memberOrBrace) found := by
  fun_cases members rule input with
  | case1 hskip span rest hs =>
    simp only [hs]
    rfl
  | case2 hskip raw span span' rest hs =>
    simp only [hs]
    exact outcomeOf_bind fun first => outcomeOf_bind fun more => rfl
  | case3 hskip raw span found hcolon hs =>
    simp only [hs]
    rfl
  | case4 hskip hbrace hcolon hname =>
    simp only
    rfl

/-- A comma before a member is ignored. -/
theorem outcomeOf_members_comma (span : Span) (rest : List Token) :
    outcomeOf (members rule (⟨.symbol .comma, span⟩ :: rest)) = outcomeOf (members rule rest) := by
  rw [outcomeOf_members, skip_cons_self, ← outcomeOf_members]

/-- A closing brace ends the members. -/
theorem outcomeOf_members_close (span : Span) (rest : List Token) :
    outcomeOf (members rule (⟨.symbol .rightBrace, span⟩ :: rest)) = .read [] rest := by
  rw [outcomeOf_members, skip_cons_of_ne (by simp)]

/-- A name, a colon and a value are one member. -/
theorem outcomeOf_members_member (raw : String) (span span' : Span) (rest : List Token) :
    outcomeOf (members rule (⟨.string raw, span⟩ :: ⟨.symbol .colon, span'⟩ :: rest)) =
      (outcomeOf (rule rest)).andThen fun value after =>
        (outcomeOf (members rule after)).map ((decodeString raw, value) :: ·) := by
  rw [outcomeOf_members, skip_cons_of_ne (by simp)]

/-- The name of a member is followed by a colon. -/
theorem outcomeOf_members_name (raw : String) (span : Span) {rest : List Token}
    (h : NotBefore (.symbol .colon = ·) (kinds rest)) :
    outcomeOf (members rule (⟨.string raw, span⟩ :: rest)) =
      .fail (.expected .colonAfterName) rest := by
  rw [outcomeOf_members, skip_cons_of_ne (by simp)]
  cases rest with
  | nil => rfl
  | cons token rest => split <;> simp_all [notBefore_cons]

/-- Neither a member nor the end of the members is at fault. -/
theorem outcomeOf_members_stray {token : Token} (hcomma : token.kind ≠ .symbol .comma)
    (hbrace : token.kind ≠ .symbol .rightBrace) (hname : ∀ raw, token.kind ≠ .string raw)
    (rest : List Token) :
    outcomeOf (members rule (token :: rest)) =
      .fail (.expected .memberOrBrace) (token :: rest) := by
  rw [outcomeOf_members, skip_cons_of_ne hcomma]
  split <;> simp_all

/-- The members of an object stop in time if their values do. -/
theorem members_inTime (h : InTime EndsExpression rule) : InTime Anything (members rule) := by
  obtain ⟨more, value, hmore⟩ := h.exists_spelling
  intro input
  induction input using members.induct with
  | case1 input _ span rest hs =>
    apply stopsInTime_of_skip outcomeOf_members_comma
    rw [hs]
    exact .take [] (outcomeOf_members_close span)
  | case2 input _ raw span span' rest hs ih =>
    apply stopsInTime_of_skip outcomeOf_members_comma
    rw [hs]
    refine .prepend [_, _] (outcomeOf_members_member raw span span') ?_
    refine (h rest).andThen (fun value after hvalue => ?_) (fun value => ?_)
      fun value after closed hclosed => ?_
    · obtain ⟨first, -, rfl, rfl⟩ := exists_parsed_of_outcomeOf hvalue
      exact (ih first).map
    · refine ⟨[(TokenKind.symbol .rightBrace).token], [(decodeString raw, value)],
        fun other _ => ⟨endsExpression_of_symbol _ other (by decide), ?_⟩⟩
      rw [List.singleton_append, TokenKind.token, outcomeOf_members_close]
      rfl
    · obtain ⟨more, hmore⟩ := ParseOutcome.exists_eq_read_of_map hclosed
      exact (outcomeOf_rule_ne (members rule) more after hmore).elim
  | case3 input _ raw span found hcolon hs =>
    apply stopsInTime_of_skip outcomeOf_members_comma
    rw [hs]
    have hfound := notBefore_of_forall_ne hcolon
    refine .fails [_] found (.expected .colonAfterName)
      ((TokenKind.symbol .colon).token :: (more ++ [(TokenKind.symbol .rightBrace).token]))
      [(decodeString raw, value)] (fun other hother => ?_) fun other _ => ?_
    · exact outcomeOf_members_name raw span ((notBefore_kinds_congr hother).mpr hfound)
    · have hclose : EndsExpression (⟨.symbol .rightBrace, ⟨0, 0⟩⟩ :: other) :=
        endsExpression_of_symbol _ other (by decide)
      rw [List.singleton_append, List.cons_append, List.append_assoc]
      refine (outcomeOf_members_member raw span _ _).trans ?_
      rw [List.singleton_append, TokenKind.token, hmore _ hclose]
      change ((outcomeOf (members rule _)).map _) = _
      rw [outcomeOf_members_close]
      rfl
  | case4 input _ hbrace hcolon hname =>
    apply stopsInTime_of_skip outcomeOf_members_comma
    refine .refuse (.expected .memberOrBrace) [_] [] ?_
      fun other _ => outcomeOf_members_close ⟨0, 0⟩ other
    cases hs : skip .comma input with
    | nil =>
      refine forall_head?_iff.mpr ?_
      rw [outcomeOf_members]
      rfl
    | cons token rest =>
      rw [hs] at hbrace hname
      refine forall_head?_iff.mpr (outcomeOf_members_stray (kind_ne_of_skip hs) ?_ ?_)
      · exact fun hkind => hbrace token.span rest (by rw [← hkind])
      · exact fun raw hkind => hname raw token.span rest (by rw [← hkind])

/-- A rule for a list of parts. Separators in front of a part are skipped, a sign closes the list,
and after a part its reader goes on. -/
def ReadsParts {α β : Type} (separator closing : Symbol) (fault : ParseFault) (part : Rule β)
    (after : β → Reader (List α)) (list : Rule (List α)) : Prop :=
  ∀ input, outcomeOf (list input) =
    match skip separator input with
    | [] => .fail fault []
    | token :: rest =>
      if token.kind = .symbol closing then .read [] rest
      else (outcomeOf (part (token :: rest))).andThen after

namespace ReadsParts

variable {α β : Type} {separator closing : Symbol} {fault : ParseFault} {part : Rule β}
  {after : β → Reader (List α)} {list : Rule (List α)}

/-- A separator before a part is ignored. -/
theorem separator_cons (h : ReadsParts separator closing fault part after list) (span : Span)
    (rest : List Token) :
    outcomeOf (list (⟨.symbol separator, span⟩ :: rest)) = outcomeOf (list rest) := by
  rw [h, skip_cons_self, ← h]

/-- A closing sign ends the parts. -/
theorem closing_cons (h : ReadsParts separator closing fault part after list)
    (hne : closing ≠ separator) (span : Span) (rest : List Token) :
    outcomeOf (list (⟨.symbol closing, span⟩ :: rest)) = .read [] rest := by
  rw [h, skip_cons_of_ne fun hkind => hne (TokenKind.symbol.inj hkind)]
  exact if_pos rfl

/-- A list stops in time if its parts do and what goes on after a part does as well, which takes
a token and can close the list. -/
theorem inTime {follows : List Token → Prop}
    (h : ReadsParts separator closing fault part after list) (hne : closing ≠ separator)
    (hpart : InTime follows part)
    (hafter : ∀ value rest, StopsInTime Anything (fun input => outcomeOf (list input)) rest →
      StopsInTime Anything (after value) rest)
    (hclose : ∀ value, ∃ more closed, ∀ other,
      follows (more ++ other) ∧ after value (more ++ other) = .read closed other)
    (htakes : ∀ value rest closed, after value rest ≠ .read closed rest) :
    InTime Anything list := by
  intro input
  induction hlength : input.length using Nat.strong_induction_on generalizing input with
  | h length ih =>
    apply stopsInTime_of_skip h.separator_cons
    cases hs : skip separator input with
    | nil =>
      exact .refuse fault [_] [] (forall_head?_iff.mpr (h []))
        fun other _ => h.closing_cons hne ⟨0, 0⟩ other
    | cons token rest =>
      by_cases hkind : token.kind = .symbol closing
      · obtain ⟨kind, span⟩ := token
        obtain rfl : kind = _ := hkind
        exact .take [] (h.closing_cons hne span)
      have hread (other : List Token) : outcomeOf (list (token :: other)) =
          (outcomeOf (part (token :: other))).andThen after := by
        rw [h, skip_cons_of_ne (kind_ne_of_skip hs)]
        exact if_neg hkind
      have hnext : StopsInTime Anything (fun input => (outcomeOf (part input)).andThen after)
          (token :: rest) := by
        refine (hpart (token :: rest)).andThen (fun value left hvalue => hafter value left ?_)
          (fun value => ?_) fun value left closed hclosed => (htakes value left closed hclosed).elim
        · obtain ⟨parsed, -, -, rfl⟩ := exists_parsed_of_outcomeOf hvalue
          have hskip := length_skip_le separator input
          rw [hs] at hskip
          exact ih _ (hlength ▸ parsed.length_rest_lt.trans_le hskip) _ rfl
        · obtain ⟨more, closed, hclosed⟩ := hclose value
          exact ⟨more, closed, fun other _ => hclosed other⟩
      refine .after [] ?_ hnext ⟨[_], [], fun other _ => h.closing_cons hne ⟨0, 0⟩ other⟩
        fun value hvalue => (outcomeOf_rule_ne list value _ ((hread rest).trans hvalue)).elim
      exact forall_head?_iff.mpr hread

end ReadsParts

/-- The elements of an array are read as parts between commas. -/
theorem elements_readsParts : ReadsParts .comma .rightBracket (.expected .closingBracket) rule
    (fun value rest => (outcomeOf (elements rule rest)).map (value :: ·)) (elements rule) := by
  intro input
  fun_cases elements rule input with
  | case1 hskip hs =>
    simp only [hs]
    rfl
  | case2 hskip token rest hs hkind =>
    simp only [hs, if_pos hkind]
    rfl
  | case3 hskip token rest hs hkind =>
    simp only [hs, if_neg hkind]
    exact outcomeOf_bind fun first => outcomeOf_bind fun more => rfl

/-- The elements of an array stop in time if they do one by one. -/
theorem elements_inTime (h : InTime EndsExpression rule) : InTime Anything (elements rule) := by
  have hlist : ReadsParts .comma .rightBracket _ rule _ (elements rule) := elements_readsParts
  refine hlist.inTime (by decide) h (fun value rest hrest => hrest.map) (fun value => ?_)
    fun value rest closed hclosed => ?_
  · refine ⟨[(TokenKind.symbol .rightBracket).token], [value],
      fun other => ⟨endsExpression_of_symbol _ other (by decide), ?_⟩⟩
    rw [List.singleton_append, TokenKind.token, hlist.closing_cons (by decide)]
    rfl
  · obtain ⟨more, hmore⟩ := ParseOutcome.exists_eq_read_of_map hclosed
    exact outcomeOf_rule_ne (elements rule) more rest hmore

/-- What stands after a statement: more statements, where the statement can end. -/
def afterStatement (expression : Rule Node) (statement : Node) (rest : List Token) :
    ParseOutcome (List Node) :=
  if endsStatement rest then (outcomeOf (statements expression rest)).map (statement :: ·)
  else .fail (.expected .semicolon) rest

/-- The statements of a block are read as parts between semicolons. -/
theorem statements_readsParts : ReadsParts .semicolon .rightBrace (.expected .blockEnd)
    (statement rule) (afterStatement rule) (statements rule) := by
  intro input
  fun_cases statements rule input with
  | case1 hskip hs =>
    simp only [hs]
    rfl
  | case2 hskip token rest hs hkind =>
    simp only [hs, if_pos hkind]
    rfl
  | case3 hskip token rest hs hkind =>
    simp only [hs, if_neg hkind]
    refine outcomeOf_bind fun first => ?_
    unfold afterStatement
    split
    · exact outcomeOf_bind fun more => rfl
    · rfl

/-- Whether a statement ends is told by the next token. -/
theorem endsStatement_congr {rest other : List Token} (h : other.head? = rest.head?) :
    endsStatement other = endsStatement rest := by
  refine forall_head?_iff (P := fun other => endsStatement other = endsStatement rest) |>.mpr ?_
    other h
  cases rest with
  | nil => rfl
  | cons token rest =>
    intro more
    unfold endsStatement
    split <;> simp_all

/-- A semicolon and a brace end a statement and the block. -/
theorem afterStatement_close (statement : Node) (span span' : Span) (rest : List Token) :
    afterStatement rule statement
      (⟨.symbol .semicolon, span⟩ :: ⟨.symbol .rightBrace, span'⟩ :: rest) =
        .read [statement] rest := by
  have hends : endsStatement
      (⟨.symbol .semicolon, span⟩ :: ⟨.symbol .rightBrace, span'⟩ :: rest) := rfl
  rw [afterStatement, if_pos hends, statements_readsParts.separator_cons,
    statements_readsParts.closing_cons (by decide)]
  rfl

/-- What follows a statement takes at least one token. -/
theorem afterStatement_ne (statement : Node) (statements : List Node) (rest : List Token) :
    afterStatement rule statement rest ≠ .read statements rest := by
  unfold afterStatement
  split
  · intro h
    obtain ⟨more, hmore⟩ := ParseOutcome.exists_eq_read_of_map h
    exact outcomeOf_rule_ne (Grammar.statements rule) more rest hmore
  · nofun

/-- After a statement a semicolon, a closing brace or neither stands. -/
theorem stopsInTime_afterStatement {rest : List Token} (statement : Node)
    (h : StopsInTime Anything (fun input => outcomeOf (statements rule input)) rest) :
    StopsInTime Anything (afterStatement rule statement) rest := by
  by_cases hends : endsStatement rest
  · refine .after [] (fun other hother => ?_) (h.map (f := (statement :: ·)))
      ⟨[_, _], _, fun other _ => afterStatement_close statement ⟨0, 0⟩ ⟨0, 0⟩ other⟩
      fun statements hstatements => ?_
    · rw [List.nil_append, afterStatement, endsStatement_congr hother, if_pos hends]
    · obtain ⟨more, hmore⟩ := ParseOutcome.exists_eq_read_of_map hstatements
      exact (outcomeOf_rule_ne (Grammar.statements rule) more rest hmore).elim
  · refine .refuse (.expected .semicolon) [_, _] _ (fun other hother => ?_)
      fun other _ => afterStatement_close statement ⟨0, 0⟩ ⟨0, 0⟩ other
    rw [afterStatement, endsStatement_congr hother, if_neg hends]

/-- The statements of a block stop in time if they do one by one. -/
theorem statements_inTime (h : InTime AtSemicolon (statement rule)) :
    InTime Anything (statements rule) :=
  statements_readsParts.inTime (by decide) h
    (fun value _ hrest => stopsInTime_afterStatement value hrest)
    (fun value => ⟨[(TokenKind.symbol .semicolon).token, (TokenKind.symbol .rightBrace).token],
      [value], fun other => ⟨⟨_, _, rfl⟩, afterStatement_close value _ _ other⟩⟩)
    fun value rest closed => afterStatement_ne value closed rest

/-- A declaration is an assignment of what follows its sign. -/
theorem outcomeOf_statement_binding (name : String) (spans : Span × Span × Span)
    (rest : List Token) :
    outcomeOf (statement rule (⟨.keyword .var, spans.1⟩ :: ⟨.identifier name, spans.2.1⟩ ::
      ⟨.symbol .assign, spans.2.2⟩ :: rest)) = (outcomeOf (rule rest)).map (.assign name) :=
  outcomeOf_map fun _ => ⟨rfl, rfl⟩

/-- An assignment takes what follows its sign. -/
theorem outcomeOf_statement_assignment (name : String) (spans : Span × Span) (rest : List Token) :
    outcomeOf (statement rule (⟨.identifier name, spans.1⟩ :: ⟨.symbol .assign, spans.2⟩ :: rest)) =
      (outcomeOf (rule rest)).map (.assign name) :=
  outcomeOf_map fun _ => ⟨rfl, rfl⟩

/-- What stands after a return value: a semicolon, which is left. -/
def afterReturn (value : Node) (rest : List Token) : ParseOutcome Node :=
  match rest with
  | ⟨.symbol .semicolon, _⟩ :: _ => .read (.return_ value) rest
  | found => .fail (.expected .semicolonAfterReturn) found

/-- A value that is returned is followed by a semicolon. -/
theorem afterReturn_of_notBefore (value : Node) {rest : List Token}
    (h : NotBefore (.symbol .semicolon = ·) (kinds rest)) :
    afterReturn value rest = .fail (.expected .semicolonAfterReturn) rest := by
  unfold afterReturn
  split
  · exact absurd rfl (notBefore_cons.mp h)
  · rfl

/-- The word `return` is followed by a value and its semicolon. -/
theorem outcomeOf_statement_return (span : Span) (rest : List Token) :
    outcomeOf (statement rule (⟨.keyword .return_, span⟩ :: rest)) =
      (outcomeOf (rule rest)).andThen afterReturn := by
  refine outcomeOf_bind fun ⟨value, rest, hlt⟩ => ?_
  obtain hsemicolon | ⟨span', more, rfl⟩ := notBefore_or_eq_cons (.symbol .semicolon) rest
  · rw [afterReturn_of_notBefore value hsemicolon]
    dsimp only
    split
    · exact absurd rfl (notBefore_cons.mp hsemicolon)
    · rfl
  · rfl

/-- A statement that starts with no word for one and no name is an expression. -/
theorem outcomeOf_statement_expression {token : Token} (hvar : token.kind ≠ .keyword .var)
    (hreturn : token.kind ≠ .keyword .return_) (hname : ∀ name, token.kind ≠ .identifier name)
    (rest : List Token) :
    outcomeOf (statement rule (token :: rest)) = outcomeOf (rule (token :: rest)) := by
  obtain ⟨kind, span⟩ := token
  cases kind with
  | identifier name => exact absurd rfl (hname name)
  | keyword word => cases word <;> first | rfl | contradiction
  | _ => rfl

/-- A name without an assignment sign behind it starts an expression. -/
theorem outcomeOf_statement_name (name : String) (span : Span) {rest : List Token}
    (h : NotBefore (.symbol .assign = ·) (kinds rest)) :
    outcomeOf (statement rule (⟨.identifier name, span⟩ :: rest)) =
      outcomeOf (rule (⟨.identifier name, span⟩ :: rest)) := by
  cases rest with
  | nil => rfl
  | cons token rest =>
    obtain ⟨kind, span⟩ := token
    cases kind with
    | symbol sign => cases sign <;> first | rfl | exact absurd rfl (notBefore_cons.mp h)
    | _ => rfl

/-- The name of a declaration is followed by an assignment sign. -/
theorem outcomeOf_statement_unassigned (name : String) (span span' : Span) {rest : List Token}
    (h : NotBefore (.symbol .assign = ·) (kinds rest)) :
    outcomeOf (statement rule (⟨.keyword .var, span⟩ :: ⟨.identifier name, span'⟩ :: rest)) =
      .fail (.expected .assignAfterName) rest := by
  cases rest with
  | nil => rfl
  | cons token rest =>
    obtain ⟨kind, span⟩ := token
    cases kind with
    | symbol sign => cases sign <;> first | rfl | exact absurd rfl (notBefore_cons.mp h)
    | _ => rfl

/-- A binding is completed by what it lacks of a name, an assignment sign and a value. -/
theorem binding_inTime (h : ∀ rules ∈ inner, rules.InTime) (span : Span) (rest : List Token) :
    StopsInTime AtSemicolon (fun input => outcomeOf (statement (expressionAround inner) input))
      (⟨.keyword .var, span⟩ :: rest) := by
  have hspell (name : String) (span' : Span) {other : List Token} (hother : AtSemicolon other) :
      outcomeOf (statement (expressionAround inner) (⟨.keyword .var, span⟩ ::
        ⟨.identifier name, span'⟩ :: (TokenKind.symbol .assign).token ::
        (TokenKind.keyword .null).token :: other)) = .read (.assign name .null) other := by
    refine (outcomeOf_statement_binding name ⟨span, span', _⟩ _).trans ?_
    rw [outcomeOf_expression_null hother.endsExpression]
    rfl
  cases rest with
  | nil =>
    exact .fails [_] [] (.expected .nameAfterVar) [_, _, _] _ (forall_head?_iff.mpr rfl)
      fun other => hspell "" ⟨0, 0⟩
  | cons token rest =>
    obtain ⟨kind, span'⟩ := token
    cases kind with
    | identifier name =>
      obtain hassign | ⟨span'', rest, rfl⟩ := notBefore_or_eq_cons (.symbol .assign) rest
      · refine .fails [_, _] rest (.expected .assignAfterName) [_, _] _ (fun other hother => ?_)
          fun other => hspell name span'
        exact outcomeOf_statement_unassigned name span span'
          ((notBefore_kinds_congr hother).mpr hassign)
      · refine .prepend [_, _, _] (outcomeOf_statement_binding name ⟨span, span', span''⟩) ?_
        exact ((expression_inTime h rest).mono fun _ => AtSemicolon.endsExpression).map
    | _ =>
      exact .fails [_] (_ :: rest) (.expected .nameAfterVar) [_, _, _] _
        (forall_head?_iff.mpr fun _ => rfl) fun other => hspell "" ⟨0, 0⟩

/-- A name that is not assigned to is an operand, and a chain goes on after it. -/
theorem name_inTime (h : ∀ rules ∈ inner, rules.InTime) (name : String) (span : Span)
    {rest : List Token} (hassign : NotBefore (.symbol .assign = ·) (kinds rest)) :
    StopsInTime AtSemicolon (fun input => outcomeOf (statement (expressionAround inner) input))
      (⟨.identifier name, span⟩ :: rest) := by
  have hgo {other : List Token} (hother : NotBefore (.symbol .assign = ·) (kinds other)) :
      outcomeOf (statement (expressionAround inner) (⟨.identifier name, span⟩ :: other)) =
        outcomeOf (chain (unary inner) 1 (.lookup name) other) :=
    (outcomeOf_statement_name name span hother).trans (outcomeOf_expression_name name span other)
  have hchain := chain_inTime (unary_inTime h) 1 (.lookup name) rest
  refine .after [_] (fun other hother => hgo ((notBefore_kinds_congr hother).mpr hassign))
    (hchain.mono fun _ => AtSemicolon.endsExpression) ⟨[], .lookup name, fun other hother => ?_⟩
    fun value _ other hother => hgo hother.notBefore_assign
  exact (hgo hother.notBefore_assign).trans
    (outcomeOf_chain_of_ends hother.endsExpression 1 (.lookup name))

/-- A return value is followed by a semicolon. -/
theorem return_inTime (h : ∀ rules ∈ inner, rules.InTime) (span : Span) (rest : List Token) :
    StopsInTime AtSemicolon (fun input => outcomeOf (statement (expressionAround inner) input))
      (⟨.keyword .return_, span⟩ :: rest) := by
  have hafter (value : Node) {other : List Token} (hother : AtSemicolon other) :
      afterReturn value other = .read (.return_ value) other := by
    obtain ⟨span, more, rfl⟩ := hother
    rfl
  refine .prepend [_] (outcomeOf_statement_return span) ?_
  refine (expression_inTime h rest).andThen (fun value after _ => ?_)
    (fun value => ⟨[], .return_ value, fun _ h => ⟨h.endsExpression, hafter value h⟩⟩)
    fun _ _ _ _ _ => AtSemicolon.endsExpression
  obtain hsemicolon | ⟨span', more, rfl⟩ := notBefore_or_eq_cons (.symbol .semicolon) after
  · refine .refuse (.expected .semicolonAfterReturn) [] (.return_ value) (fun other hother => ?_)
      fun other => hafter value
    exact afterReturn_of_notBefore value ((notBefore_kinds_congr hother).mpr hsemicolon)
  · refine .reads [] _ (.return_ value) fun other hother => hafter value ?_
    obtain hhead | hsemicolon := hother
    · obtain ⟨more, rfl⟩ := List.head?_eq_some_iff.mp hhead
      exact ⟨span', more, rfl⟩
    · exact hsemicolon

/-- Statements stop in time if the rules one level down do. -/
theorem statement_inTime (h : ∀ rules ∈ inner, rules.InTime) :
    InTime AtSemicolon (statement (expressionAround inner)) := by
  have hnull (other : List Token) (hother : AtSemicolon other) :
      outcomeOf (statement (expressionAround inner) ((TokenKind.keyword .null).token :: other)) =
        .read .null other := outcomeOf_expression_null hother.endsExpression
  intro input
  cases input with
  | nil => exact .refuse (.expected .expression) [_] .null (forall_head?_iff.mpr rfl) hnull
  | cons token rest =>
    by_cases hvar : token.kind = .keyword .var
    · obtain ⟨kind, span⟩ := token
      obtain rfl : kind = _ := hvar
      exact binding_inTime h span rest
    by_cases hreturn : token.kind = .keyword .return_
    · obtain ⟨kind, span⟩ := token
      obtain rfl : kind = _ := hreturn
      exact return_inTime h span rest
    by_cases hname : ∃ name, token.kind = .identifier name
    · obtain ⟨kind, span⟩ := token
      obtain ⟨name, rfl : kind = _⟩ := hname
      obtain hassign | ⟨span', rest, rfl⟩ := notBefore_or_eq_cons (.symbol .assign) rest
      · exact name_inTime h name span hassign
      · refine .prepend [_, _] (outcomeOf_statement_assignment name ⟨span, span'⟩) ?_
        exact ((expression_inTime h rest).mono fun _ => AtSemicolon.endsExpression).map
    · refine .after [] ?_
        ((expression_inTime h (token :: rest)).mono fun _ => AtSemicolon.endsExpression)
        ⟨[_], .null, hnull⟩ fun value hvalue => absurd hvalue (outcomeOf_rule_ne _ value _)
      exact forall_head?_iff.mpr
        (outcomeOf_statement_expression hvar hreturn (not_exists.mp hname))

/-- What stands after the expression in a group: its closing parenthesis. -/
def afterGrouped (inside : Node) (rest : List Token) : ParseOutcome Node :=
  match rest with
  | ⟨.symbol .rightParen, _⟩ :: rest => .read inside rest
  | found => .fail (.expected .closingParen) found

/-- A group is an expression and its closing sign. -/
theorem outcomeOf_group (input : List Token) :
    outcomeOf (group rule input) = (outcomeOf (rule input)).andThen afterGrouped := by
  refine outcomeOf_bind fun inside => ?_
  unfold afterGrouped
  dsimp only
  split <;> simp_all <;> rfl

/-- A group is closed. -/
theorem afterGrouped_of_notBefore (inside : Node) {rest : List Token}
    (h : NotBefore (.symbol .rightParen = ·) (kinds rest)) :
    afterGrouped inside rest = .fail (.expected .closingParen) rest := by
  unfold afterGrouped
  split
  · exact absurd rfl (notBefore_cons.mp h)
  · rfl

/-- What follows the expression of a group takes at least one token. -/
theorem afterGrouped_ne (inside node : Node) (rest : List Token) :
    afterGrouped inside rest ≠ .read node rest := by
  unfold afterGrouped
  split
  · intro h
    exact List.cons_ne_self _ _ (congrArg ParseOutcome.rest h).symm
  · nofun

/-- Groups stop in time if their expressions do. -/
theorem group_inTime (h : InTime EndsExpression rule) : InTime Anything (group rule) := by
  intro input
  refine .prepend [] outcomeOf_group ((h input).andThen (fun value rest _ => ?_) (fun value => ?_)
    fun value rest node hnode => (afterGrouped_ne value node rest hnode).elim)
  · obtain hparen | ⟨span, rest, rfl⟩ := notBefore_or_eq_cons (.symbol .rightParen) rest
    · refine .refuse (.expected .closingParen) [(TokenKind.symbol .rightParen).token] value
        (fun other hother => ?_) fun other _ => rfl
      exact afterGrouped_of_notBefore value ((notBefore_kinds_congr hother).mpr hparen)
    · exact .take value fun _ => rfl
  · exact ⟨[(TokenKind.symbol .rightParen).token], value,
      fun other _ => ⟨endsExpression_of_symbol _ other (by decide), rfl⟩⟩

end Grammar

namespace Rules

/-- The rules of a level stop in time if those of the level inside do. -/
theorem inTime_level {inner : Option Rules} (h : ∀ rules ∈ inner, rules.InTime) :
    (level inner).InTime where
  unary := Grammar.unary_inTime h
  object := fun input => .prepend [] (fun _ => outcomeOf_map fun _ => ⟨rfl, rfl⟩)
    (Grammar.members_inTime (Grammar.value_inTime h) input).map
  array := fun input => .prepend [] (fun _ => outcomeOf_map fun _ => ⟨rfl, rfl⟩)
    (Grammar.elements_inTime (Grammar.value_inTime h) input).map
  block := fun input => .prepend [] (fun _ => outcomeOf_map fun _ => ⟨rfl, rfl⟩)
    (Grammar.statements_inTime (Grammar.statement_inTime h) input).map
  group := Grammar.group_inTime (Grammar.expression_inTime h)

/-- The rules of every level stop in time. -/
theorem inTime_nested (levels : Nat) : (nested levels).InTime := by
  induction levels with
  | zero => exact inTime_level fun _ h => nomatch h
  | succ levels ih =>
    apply inTime_level
    intro rules h
    cases h
    exact ih

end Rules

namespace Grammar

/-- A document starts with a brace or a bracket. -/
theorem outcomeOf_root_of_notBefore {input : List Token}
    (hbrace : NotBefore (.symbol .leftBrace = ·) (kinds input))
    (hbracket : NotBefore (.symbol .leftBracket = ·) (kinds input)) :
    outcomeOf (root input) = .fail (.expected .root) input := by
  unfold root
  split
  · exact absurd rfl (notBefore_cons.mp hbrace)
  · exact absurd rfl (notBefore_cons.mp hbracket)
  · rfl

/-- Documents stop in time. -/
theorem root_inTime : InTime Anything root := by
  have hlevel := Rules.inTime_nested nestingLimit
  intro input
  obtain hbrace | ⟨span, rest, rfl⟩ := notBefore_or_eq_cons (.symbol .leftBrace) input
  · obtain hbracket | ⟨span, rest, rfl⟩ := notBefore_or_eq_cons (.symbol .leftBracket) input
    · obtain ⟨more, tree, hmore⟩ := hlevel.object.exists_spelling
      refine .refuse (.expected .root) ((TokenKind.symbol .leftBrace).token :: more) tree
        (fun other hother => ?_) fun other _ => ?_
      · exact outcomeOf_root_of_notBefore ((notBefore_kinds_congr hother).mpr hbrace)
          ((notBefore_kinds_congr hother).mpr hbracket)
      · rw [← hmore other trivial]
        exact outcomeOf_widen _
    · exact .prepend [_] (fun other => outcomeOf_widen _) (hlevel.array rest)
  · exact .prepend [_] (fun other => outcomeOf_widen _) (hlevel.object rest)

end Grammar

end JsonTemplate
