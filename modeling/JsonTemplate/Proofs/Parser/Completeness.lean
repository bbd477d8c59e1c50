import JsonTemplate.Proofs.Parser.Soundness

/-!
# What is derived is read

Whatever tokens have the kinds of a derivation, the rule of its phrase reads the tree of the
derivation from them. The rules never look behind the tokens they are given, so a phrase is
read in the same way whatever follows it; only expressions and paths look one token ahead.

A sum and a product have no rule of their own. What a derivation of one gives is that the chain
of operators goes on from its tree, at the tokens after it, as it does from the first operand.
-/

namespace JsonTemplate

/-- The tree read is the given one and the tokens left have the given kinds. -/
def Leaves {α : Type} (tree : α) (left : List TokenKind) (value : α) (rest : List Token) : Prop :=
  value = tree ∧ kinds rest = left

namespace Rules

/-- The rules of the level inside one with the given number of levels. -/
def inside : Nat → Option Rules
  | 0 => none
  | more + 1 => some (nested more)

/-- Each level is made from the rules inside it. -/
theorem nested_eq_level (levels : Nat) : nested levels = level (inside levels) := by
  cases levels <;> rfl

end Rules

namespace Grammar

variable {levels : Nat} {inner : Option Rules} {rule : Rule Node} {P Q : Node → List Token → Prop}
  {E : Failure → Prop}

/-- Expressions with the given number of levels inside. -/
def expressionAt (levels : Nat) : Rule Node := binary (Rules.nested levels).unary 1

/-- Values with the given number of levels inside. -/
def valueAt (levels : Nat) : Rule Node := value (Rules.inside levels) (expressionAt levels)

/-- An operator that binds tightly enough takes a right operand, and the chain goes on. -/
theorem settles_chain_of_operator {operand : Rule Node} {least : Nat} {left : Node} {token : Token}
    {rest : List Token} {operator : Operator} (hoperator : token.kind = .symbol operator.sign)
    (hle : least ≤ operator.precedence)
    (hright : Settles P E (binary operand (operator.precedence + 1) rest))
    (hchain : ∀ right after, P right after →
      Settles Q E (chain operand least (.binary operator left right) after)) :
    Settles Q E (chain operand least left (token :: rest)) := by
  rw [chain.eq_def]
  dsimp only
  rw [operator?_eq_some_iff.mpr hoperator]
  dsimp only
  rw [if_neg (Nat.not_lt.mpr hle)]
  unfold binary at hright
  cases hfirst : operand rest with
  | error failure =>
    rw [hfirst] at hright
    exact hright
  | ok first =>
    rw [hfirst] at hright
    change Settles Q E (chain operand _ first.value first.rest >>= _)
    apply ((settles_widen_iff first.length_rest_lt).mp hright).bind
    intro right hp
    exact (hchain _ _ hp).bind fun all hall => hall

/-- An operand starts the chain of operators after it. -/
theorem settles_binary {operand : Rule Node} {least : Nat} {input : List Token}
    (hfirst : Settles P E (operand input))
    (hchain : ∀ first after, P first after → Settles Q E (chain operand least first after)) :
    Settles Q E (binary operand least input) :=
  hfirst.bind fun _ hp => (hchain _ _ hp).bind fun _ hall => hall

/-- An expression that is a whole operand. -/
theorem settles_binary_of_stop {operand : Rule Node} {least : Nat} {input : List Token}
    (h : Settles P E (operand input))
    (hstop : ∀ value rest, P value rest → NotBefore (BindsTightly least) (kinds rest)) :
    Settles P E (binary operand least input) := by
  apply settles_binary h
  intro first after hp
  rw [chain_of_not_bindsTightly (hstop first after hp)]
  exact hp

/-- Only a minus sign and the opening signs start an expression. -/
theorem not_accepts_expression_of_symbol {sign : Symbol} {input : List Token} {span : Span}
    (h : sign ∉ [.minus, .leftParen, .leftBracket, .leftBrace]) :
    ¬Accepts P (expressionAt levels (⟨.symbol sign, span⟩ :: input)) := by
  rw [expressionAt, Rules.nested_eq_level]
  cases sign <;> first | exact id | exact absurd (by decide) h

/-- A word of a statement starts no expression. -/
theorem not_accepts_expression_of_keyword {word : Keyword} {input : List Token} {span : Span}
    (h : word = .var ∨ word = .return_) :
    ¬Accepts P (expressionAt levels (⟨.keyword word, span⟩ :: input)) := by
  rw [expressionAt, Rules.nested_eq_level]
  rcases h with rfl | rfl <;> exact id

/-- There is no expression at the end of the tokens. -/
theorem not_accepts_expression_nil : ¬Accepts P (expressionAt levels []) := by
  rw [expressionAt, Rules.nested_eq_level]
  exact id

/-- A name before an assignment sign is an expression that ends there. -/
theorem expression_of_name_assign (name : String) (spans : Span × Span) (rest : List Token) :
    Yields (fun _ after => kinds after = .symbol .assign :: kinds rest)
      (expressionAt levels
        (⟨.identifier name, spans.1⟩ :: ⟨.symbol .assign, spans.2⟩ :: rest)) := by
  rw [expressionAt, Rules.nested_eq_level]
  refine settles_binary_of_stop rfl fun value after hafter => ?_
  rw [hafter]
  apply notBefore_cons.mpr
  rintro ⟨operator, hkind, -⟩
  cases operator <;> cases hkind

/-- The members of an object, by the first token that is no comma. -/
theorem settles_members {P : List (String × Node) → List Token → Prop} {input : List Token} :
    Settles P E (members rule input) ↔
      match skip .comma input with
      | ⟨.symbol .rightBrace, _⟩ :: rest => P [] rest
      | ⟨.string raw, _⟩ :: ⟨.symbol .colon, _⟩ :: rest =>
        Settles (fun value after => Settles
          (fun more left => P ((decodeString raw, value) :: more) left) E (members rule after))
          E (rule rest)
      | ⟨.string _, _⟩ :: found => E ⟨.expected .colonAfterName, found⟩
      | found => E ⟨.expected .memberOrBrace, found⟩ := by
  fun_cases members rule input with
  | case1 hskip span rest hs =>
    simp only [hs]
    exact Iff.rfl
  | case2 hskip raw span span' rest hs =>
    simp only [hs]
    cases rule rest with
    | error failure => exact Iff.rfl
    | ok first =>
      simp only [Settles, bind, Except.bind]
      cases members rule first.rest <;> exact Iff.rfl
  | case3 hskip raw span found hcolon hs =>
    simp only [hs]
    exact Iff.rfl
  | case4 hskip hbrace hcolon hname =>
    simp only
    exact Iff.rfl

/-- The elements of an array, by the first token that is no comma. -/
theorem settles_elements {P : List Node → List Token → Prop} {input : List Token} :
    Settles P E (elements rule input) ↔
      match skip .comma input with
      | [] => E ⟨.expected .closingBracket, []⟩
      | token :: rest =>
        if token.kind = .symbol .rightBracket then P [] rest
        else Settles (fun value after => Settles
          (fun more left => P (value :: more) left) E (elements rule after))
          E (rule (token :: rest)) := by
  fun_cases elements rule input with
  | case1 hskip hs =>
    simp only [hs]
    exact Iff.rfl
  | case2 hskip token rest hs hkind =>
    simp only [hs, if_pos hkind]
    exact Iff.rfl
  | case3 hskip token rest hs hkind =>
    simp only [hs, if_neg hkind]
    cases rule (token :: rest) with
    | error failure => exact Iff.rfl
    | ok first =>
      simp only [Settles, bind, Except.bind]
      cases elements rule first.rest <;> exact Iff.rfl

/-- The statements of a block, by the first token that is no semicolon. -/
theorem settles_statements {P : List Node → List Token → Prop} {input : List Token} :
    Settles P E (statements rule input) ↔
      match skip .semicolon input with
      | [] => E ⟨.expected .blockEnd, []⟩
      | token :: rest =>
        if token.kind = .symbol .rightBrace then P [] rest
        else Settles (fun statement after =>
          if endsStatement after then
            Settles (fun more left => P (statement :: more) left) E (statements rule after)
          else E ⟨.expected .semicolon, after⟩)
          E (statement rule (token :: rest)) := by
  fun_cases statements rule input with
  | case1 hskip hs =>
    simp only [hs]
    exact Iff.rfl
  | case2 hskip token rest hs hkind =>
    simp only [hs, if_pos hkind]
    exact Iff.rfl
  | case3 hskip token rest hs hkind =>
    simp only [hs, if_neg hkind]
    cases statement rule (token :: rest) with
    | error failure => exact Iff.rfl
    | ok first =>
      simp only [Settles, bind, Except.bind]
      by_cases hends : endsStatement first.rest
      · simp only [if_pos hends]
        cases statements rule first.rest <;> exact Iff.rfl
      · simp only [if_neg hends]
        exact Iff.rfl

/-- A sign that is skipped is gone. -/
theorem skip_cons_self (sign : Symbol) (span : Span) (input : List Token) :
    skip sign (⟨.symbol sign, span⟩ :: input) = skip sign input :=
  List.dropWhile_cons_of_pos (by simp)

/-- Another token than the sign is not skipped. -/
theorem skip_cons_of_ne {sign : Symbol} {token : Token} (h : token.kind ≠ .symbol sign)
    (input : List Token) : skip sign (token :: input) = token :: input :=
  List.dropWhile_cons_of_neg (by simpa using h)

/-- A closing brace ends the members. -/
theorem settles_members_close {P : List (String × Node) → List Token → Prop}
    {input : List Token} {left : List TokenKind}
    (hinput : kinds input = .symbol .rightBrace :: left)
    (h : ∀ rest, kinds rest = left → P [] rest) : Settles P E (members rule input) := by
  obtain ⟨_, rest, rfl, hrest⟩ := kinds_eq_cons_iff.mp hinput
  apply settles_members.mpr
  rw [skip_cons_of_ne (by simp)]
  exact h rest hrest

/-- A comma between members is ignored. -/
theorem settles_members_comma {P : List (String × Node) → List Token → Prop}
    {input : List Token} {left : List TokenKind} (hinput : kinds input = .symbol .comma :: left)
    (h : ∀ rest, kinds rest = left → Settles P E (members rule rest)) :
    Settles P E (members rule input) := by
  obtain ⟨_, rest, rfl, hrest⟩ := kinds_eq_cons_iff.mp hinput
  apply settles_members.mpr
  rw [skip_cons_self]
  exact settles_members.mp (h rest hrest)

/-- A name, a colon and a value are read first, whatever follows them. -/
theorem settles_members_member {P : List (String × Node) → List Token → Prop}
    {input : List Token} {raw : String} {left : List TokenKind}
    (hinput : kinds input = .string raw :: .symbol .colon :: left)
    (h : ∀ rest, kinds rest = left → Settles (fun value after => Settles
      (fun more rest => P ((decodeString raw, value) :: more) rest) E (members rule after))
      E (rule rest)) :
    Settles P E (members rule input) := by
  obtain ⟨_, _, rfl, hcolon⟩ := kinds_eq_cons_iff.mp hinput
  obtain ⟨_, rest, rfl, hrest⟩ := kinds_eq_cons_iff.mp hcolon
  apply settles_members.mpr
  rw [skip_cons_of_ne (by simp)]
  exact h rest hrest

/-- A closing bracket ends the elements. -/
theorem settles_elements_close {P : List Node → List Token → Prop} {input : List Token}
    {left : List TokenKind} (hinput : kinds input = .symbol .rightBracket :: left)
    (h : ∀ rest, kinds rest = left → P [] rest) : Settles P E (elements rule input) := by
  obtain ⟨_, rest, rfl, hrest⟩ := kinds_eq_cons_iff.mp hinput
  apply settles_elements.mpr
  rw [skip_cons_of_ne (by simp)]
  exact h rest hrest

/-- A comma between elements is ignored. -/
theorem settles_elements_comma {P : List Node → List Token → Prop} {input : List Token}
    {left : List TokenKind} (hinput : kinds input = .symbol .comma :: left)
    (h : ∀ rest, kinds rest = left → Settles P E (elements rule rest)) :
    Settles P E (elements rule input) := by
  obtain ⟨_, rest, rfl, hrest⟩ := kinds_eq_cons_iff.mp hinput
  apply settles_elements.mpr
  rw [skip_cons_self]
  exact settles_elements.mp (h rest hrest)

/-- Before any other token an element is read first, whatever follows it. -/
theorem settles_elements_element {P : List Node → List Token → Prop} {token : Token}
    {rest : List Token} (hcomma : token.kind ≠ .symbol .comma)
    (hbracket : token.kind ≠ .symbol .rightBracket)
    (h : Settles (fun value after => Settles (fun more rest => P (value :: more) rest) E
      (elements rule after)) E (rule (token :: rest))) :
    Settles P E (elements rule (token :: rest)) := by
  apply settles_elements.mpr
  rw [skip_cons_of_ne hcomma]
  dsimp only
  rwa [if_neg hbracket]

/-- A closing brace ends the statements. -/
theorem settles_statements_close {P : List Node → List Token → Prop} {input : List Token}
    {left : List TokenKind} (hinput : kinds input = .symbol .rightBrace :: left)
    (h : ∀ rest, kinds rest = left → P [] rest) : Settles P E (statements rule input) := by
  obtain ⟨_, rest, rfl, hrest⟩ := kinds_eq_cons_iff.mp hinput
  apply settles_statements.mpr
  rw [skip_cons_of_ne (by simp)]
  exact h rest hrest

/-- A semicolon between statements is ignored. -/
theorem settles_statements_semicolon {P : List Node → List Token → Prop} {input : List Token}
    {left : List TokenKind} (hinput : kinds input = .symbol .semicolon :: left)
    (h : ∀ rest, kinds rest = left → Settles P E (statements rule rest)) :
    Settles P E (statements rule input) := by
  obtain ⟨_, rest, rfl, hrest⟩ := kinds_eq_cons_iff.mp hinput
  apply settles_statements.mpr
  rw [skip_cons_self]
  exact settles_statements.mp (h rest hrest)

/-- Before any other token a statement is read first; more follow it where it can end. -/
theorem settles_statements_statement {P : List Node → List Token → Prop} {token : Token}
    {rest : List Token} (hsemicolon : token.kind ≠ .symbol .semicolon)
    (hbrace : token.kind ≠ .symbol .rightBrace)
    (h : Settles (fun statement after => endsStatement after ∧
      Settles (fun more rest => P (statement :: more) rest) E (statements rule after))
      E (statement rule (token :: rest))) :
    Settles P E (statements rule (token :: rest)) := by
  apply settles_statements.mpr
  rw [skip_cons_of_ne hsemicolon]
  dsimp only
  rw [if_neg hbrace]
  refine h.mono (fun statement after hstatement => ?_) (fun _ => id)
  rw [if_pos hstatement.1]
  exact hstatement.2

/-- An object is read as its members are. -/
theorem settles_object {input : List Token} :
    Settles P E ((Rules.nested levels).object input) ↔
      Settles (fun members rest => P (.object members) rest) E
        (members (valueAt levels) input) := by
  have hrule : (Rules.nested levels).object input =
      (·.map .object (Nat.le_refl _)) <$> members (valueAt levels) input := by
    cases levels <;> rfl
  rw [hrule]
  cases members (valueAt levels) input <;> exact Iff.rfl

/-- An array is read as its elements are. -/
theorem settles_array {input : List Token} :
    Settles P E ((Rules.nested levels).array input) ↔
      Settles (fun elements rest => P (.array elements) rest) E
        (elements (valueAt levels) input) := by
  have hrule : (Rules.nested levels).array input =
      (·.map .array (Nat.le_refl _)) <$> elements (valueAt levels) input := by
    cases levels <;> rfl
  rw [hrule]
  cases elements (valueAt levels) input <;> exact Iff.rfl

/-- A block is read as its statements are. -/
theorem settles_block {input : List Token} :
    Settles P E ((Rules.nested levels).block input) ↔
      Settles (fun statements rest => P (.block statements) rest) E
        (statements (expressionAt levels) input) := by
  have hrule : (Rules.nested levels).block input =
      (·.map .block (Nat.le_refl _)) <$> statements (expressionAt levels) input := by
    cases levels <;> rfl
  rw [hrule]
  cases statements (expressionAt levels) input <;> exact Iff.rfl

/-- A group is an expression and a closing sign. -/
theorem accepts_group {tree : Node} {left : List TokenKind} {input : List Token}
    (h : Accepts (Leaves tree (.symbol .rightParen :: left)) (expressionAt levels input)) :
    Accepts (Leaves tree left) ((Rules.nested levels).group input) := by
  have hrule : (Rules.nested levels).group = group (expressionAt levels) := by
    cases levels <;> rfl
  rw [hrule]
  apply h.bind
  intro inside hinside
  obtain ⟨span, more, hrest, hmore⟩ := kinds_eq_cons_iff.mp hinside.2
  dsimp only
  split
  · rename_i hparen
    obtain ⟨-, rfl⟩ := List.cons.inj (hrest.symm.trans hparen)
    exact ⟨hinside.1, hmore⟩
  · rename_i hother
    exact hother span more hrest

/-- A path ends before a token that does not extend it. -/
theorem accessors_of_stop {input : List Token} (h : NotBefore ExtendsPath (kinds input)) :
    accessors input = .ok ⟨[], input, Nat.lt_succ_self _⟩ := by
  cases input with
  | nil => rw [accessors]
  | cons token rest =>
    obtain ⟨kind, span⟩ := token
    have hkind := mt (extendsPath_iff kind).mpr (notBefore_cons.mp h)
    obtain ⟨hdot, hbracket, hstray⟩ : kind ≠ .symbol .dot ∧ kind ≠ .symbol .leftBracket ∧
        ¬isStray kind := by
      rwa [not_or, not_or] at hkind
    rw [accessors, if_neg hstray]
    all_goals grind

/-- The accessors of a path are read. -/
theorem accepts_accessors {path : List Accessor} {start left : List TokenKind}
    (h : PathDerives path start left) (input : List Token) (hinput : kinds input = start) :
    Accepts (Leaves path left) (accessors input) := by
  induction h generalizing input with
  | stop hstop =>
    rw [← hinput] at hstop
    rw [accessors_of_stop hstop]
    exact ⟨rfl, hinput⟩
  | name _ ih =>
    obtain ⟨_, _, rfl, hname⟩ := kinds_eq_cons_iff.mp hinput
    obtain ⟨_, more, rfl, hmore⟩ := kinds_eq_cons_iff.mp hname
    rw [accessors.eq_def]
    exact (ih more hmore).bind fun _ hp => ⟨congrArg _ hp.1, hp.2⟩
  | word _ ih =>
    obtain ⟨_, _, rfl, hword⟩ := kinds_eq_cons_iff.mp hinput
    obtain ⟨_, more, rfl, hmore⟩ := kinds_eq_cons_iff.mp hword
    rw [accessors.eq_def]
    exact (ih more hmore).bind fun _ hp => ⟨congrArg _ hp.1, hp.2⟩
  | index _ ih =>
    obtain ⟨_, _, rfl, hindex⟩ := kinds_eq_cons_iff.mp hinput
    obtain ⟨_, _, rfl, hclose⟩ := kinds_eq_cons_iff.mp hindex
    obtain ⟨_, more, rfl, hmore⟩ := kinds_eq_cons_iff.mp hclose
    rw [accessors.eq_def]
    exact (ih more hmore).bind fun _ hp => ⟨congrArg _ hp.1, hp.2⟩
  | key _ ih =>
    obtain ⟨_, _, rfl, hkey⟩ := kinds_eq_cons_iff.mp hinput
    obtain ⟨_, _, rfl, hclose⟩ := kinds_eq_cons_iff.mp hkey
    obtain ⟨_, more, rfl, hmore⟩ := kinds_eq_cons_iff.mp hclose
    rw [accessors.eq_def]
    exact (ih more hmore).bind fun _ hp => ⟨congrArg _ hp.1, hp.2⟩

/-- An operand without a minus sign. -/
theorem accepts_unary {input : List Token}
    (h : Accepts P (primary (Rules.inside levels) input)) :
    Accepts P ((Rules.nested levels).unary input) := by
  rw [Rules.nested_eq_level]
  change Accepts P (unary (Rules.inside levels) input)
  unfold unary
  split
  · exact h.elim
  · exact h

/-- The magnitude of the least integer is no operand, so a minus sign takes the operand that is
read after it. -/
theorem accepts_unary_of_minus {tree : Node} {left : List TokenKind} {input : List Token}
    {span : Span} (h : Accepts (Leaves tree left) ((Rules.nested levels).unary input)) :
    Accepts (Leaves (.negate tree) left)
      ((Rules.nested (levels + 1)).unary (⟨.symbol .minus, span⟩ :: input)) := by
  have hnegated : Accepts (Leaves (.negate tree) left)
      (negated (Rules.inside (levels + 1)) input) :=
    h.map fun _ hp => ⟨congrArg _ hp.1, hp.2⟩
  change Accepts _ (unary (Rules.inside (levels + 1)) _)
  unfold unary
  dsimp only
  split
  · split
    · rename_i hgreatest
      subst hgreatest
      rw [Rules.nested_eq_level] at h
      exact h.elim
    · exact hnegated
  · exact hnegated

/-- An expression is a value. -/
theorem accepts_valueAt {input : List Token} (h : Accepts P (expressionAt levels input)) :
    Accepts P (valueAt levels input) := by
  unfold valueAt value
  split
  · rename_i token rest
    split
    · rename_i harrow
      obtain ⟨kind, span⟩ := token
      obtain rfl : kind = _ := harrow
      exact (not_accepts_expression_of_symbol (by decide) h).elim
    · exact h
  · exact h

/-- A value starts neither with a comma nor with a closing bracket. -/
theorem accepts_valueAt_head {input : List Token} (h : Accepts P (valueAt levels input)) :
    ∃ token rest, input = token :: rest ∧ token.kind ≠ .symbol .comma ∧
      token.kind ≠ .symbol .rightBracket := by
  cases input with
  | nil => exact (not_accepts_expression_nil h).elim
  | cons token rest =>
    obtain ⟨kind, span⟩ := token
    refine ⟨_, _, rfl, ?_, ?_⟩
    all_goals
      intro hkind
      obtain rfl : kind = _ := hkind
      exact not_accepts_expression_of_symbol (by decide) h

/-- An expression is a statement where the statement can end after it. -/
theorem accepts_statement {tree : Node} {next : TokenKind} {left : List TokenKind}
    {input : List Token} (h : Accepts (Leaves tree (next :: left)) (expressionAt levels input))
    (hnext : EndsStatement next) :
    Accepts (Leaves tree (next :: left)) (statement (expressionAt levels) input) := by
  unfold statement
  split
  · exact (not_accepts_expression_of_keyword (Or.inl rfl) h).elim
  · exact (not_accepts_expression_of_keyword (Or.inr rfl) h).elim
  · rename_i name span span' rest
    have hassign := h.and (expression_of_name_assign name ⟨span, span'⟩ rest)
    obtain ⟨parsed, -, hleaves, hafter⟩ := Accepts.exists hassign
    obtain ⟨rfl, -⟩ := List.cons.inj (hleaves.2.symm.trans hafter)
    rcases hnext with hkind | hkind <;> cases hkind
  · exact h

/-- A statement starts neither with a semicolon nor with a closing brace. -/
theorem accepts_statement_head {input : List Token}
    (h : Accepts P (statement (expressionAt levels) input)) :
    ∃ token rest, input = token :: rest ∧ token.kind ≠ .symbol .semicolon ∧
      token.kind ≠ .symbol .rightBrace := by
  cases input with
  | nil => exact (not_accepts_expression_nil h).elim
  | cons token rest =>
    obtain ⟨kind, span⟩ := token
    refine ⟨_, _, rfl, ?_, ?_⟩
    all_goals
      intro hkind
      obtain rfl : kind = _ := hkind
      exact not_accepts_expression_of_symbol (by decide) h

/-- What it is for the tree of a phrase to be read from tokens. -/
def Accepted (phrase : Phrase) (levels : Nat) (tree : Node) (input : List Token)
    (left : List TokenKind) : Prop :=
  match phrase with
  | .object => Accepts (Leaves tree left) ((Rules.nested levels).object input)
  | .array => Accepts (Leaves tree left) ((Rules.nested levels).array input)
  | .block => Accepts (Leaves tree left) ((Rules.nested levels).block input)
  | .value => Accepts (Leaves tree left) (valueAt levels input)
  | .statement => Accepts (Leaves tree left) (statement (expressionAt levels) input)
  | .expression => Accepts (Leaves tree left) (expressionAt levels input)
  | .sum => NotBefore (BindsTightly 2) left → ∀ Q : Node → List Token → Prop,
      (∀ after, kinds after = left →
        Accepts Q (chain (Rules.nested levels).unary 1 tree after)) →
      Accepts Q (binary (Rules.nested levels).unary 1 input)
  | .product => ∀ least ≤ 2, ∀ Q : Node → List Token → Prop,
      (∀ after, kinds after = left →
        Accepts Q (chain (Rules.nested levels).unary least tree after)) →
      Accepts Q (binary (Rules.nested levels).unary least input)
  | .unary => Accepts (Leaves tree left) ((Rules.nested levels).unary input)
  | .primary => Accepts (Leaves tree left) (primary (Rules.inside levels) input)

/-- What is derived is read. -/
theorem accepted_of_derives {phrase : Phrase} {levels : Nat} {tree : Node}
    {start left : List TokenKind} (h : Derives phrase levels tree start left)
    (input : List Token) (hinput : kinds input = start) :
    Accepted phrase levels tree input left := by
  induction h generalizing input with
  | objectEnd =>
    exact settles_object.mpr (settles_members_close hinput fun rest hrest => ⟨rfl, hrest⟩)
  | objectComma _ ih =>
    apply settles_object.mpr
    apply settles_members_comma hinput
    intro more hmore
    exact settles_object.mp (ih more hmore)
  | objectMember _ _ ihValue ihMore =>
    apply settles_object.mpr
    apply settles_members_member hinput
    intro more hmore
    refine (ihValue more hmore).mono (fun value after hvalue => ?_) (fun _ => id)
    refine (settles_object.mp (ihMore after hvalue.2)).mono (fun members rest hp => ?_)
      (fun _ => id)
    obtain rfl := Node.object.inj hp.1
    exact ⟨by rw [hvalue.1], hp.2⟩
  | arrayEnd =>
    exact settles_array.mpr (settles_elements_close hinput fun rest hrest => ⟨rfl, hrest⟩)
  | arrayComma _ ih =>
    apply settles_array.mpr
    apply settles_elements_comma hinput
    intro more hmore
    exact settles_array.mp (ih more hmore)
  | arrayElement _ _ ihValue ihMore =>
    have hfirst := ihValue input hinput
    obtain ⟨token, rest, rfl, hcomma, hbracket⟩ := accepts_valueAt_head hfirst
    apply settles_array.mpr
    apply settles_elements_element hcomma hbracket
    refine hfirst.mono (fun value after hvalue => ?_) (fun _ => id)
    refine (settles_array.mp (ihMore after hvalue.2)).mono (fun elements rest hp => ?_)
      (fun _ => id)
    obtain rfl := Node.array.inj hp.1
    exact ⟨by rw [hvalue.1], hp.2⟩
  | blockValue _ ih =>
    obtain ⟨_, _, rfl, hbrace⟩ := kinds_eq_cons_iff.mp hinput
    obtain ⟨_, body, rfl, hbody⟩ := kinds_eq_cons_iff.mp hbrace
    exact (ih body hbody).map fun _ hp => hp
  | expressionValue _ ih => exact accepts_valueAt (ih input hinput)
  | blockEnd =>
    exact settles_block.mpr (settles_statements_close hinput fun rest hrest => ⟨rfl, hrest⟩)
  | blockSemicolon _ ih =>
    apply settles_block.mpr
    apply settles_statements_semicolon hinput
    intro more hmore
    exact settles_block.mp (ih more hmore)
  | blockStatement _ hnext _ ihStatement ihMore =>
    have hfirst := ihStatement input hinput
    obtain ⟨token, rest, rfl, hsemicolon, hbrace⟩ := accepts_statement_head hfirst
    apply settles_block.mpr
    apply settles_statements_statement hsemicolon hbrace
    refine hfirst.mono (fun statement after hstatement => ?_) (fun _ => id)
    refine ⟨(endsStatement_iff after).mpr ⟨_, _, hstatement.2, hnext⟩, ?_⟩
    refine (settles_block.mp (ihMore after hstatement.2)).mono (fun statements rest hp => ?_)
      (fun _ => id)
    obtain rfl := Node.block.inj hp.1
    exact ⟨by rw [hstatement.1], hp.2⟩
  | binding _ ih =>
    obtain ⟨_, _, rfl, hname⟩ := kinds_eq_cons_iff.mp hinput
    obtain ⟨_, _, rfl, hassign⟩ := kinds_eq_cons_iff.mp hname
    obtain ⟨_, more, rfl, hmore⟩ := kinds_eq_cons_iff.mp hassign
    exact (ih more hmore).map fun _ hp => ⟨congrArg _ hp.1, hp.2⟩
  | assignment _ ih =>
    obtain ⟨_, _, rfl, hassign⟩ := kinds_eq_cons_iff.mp hinput
    obtain ⟨_, more, rfl, hmore⟩ := kinds_eq_cons_iff.mp hassign
    exact (ih more hmore).map fun _ hp => ⟨congrArg _ hp.1, hp.2⟩
  | returning _ ih =>
    obtain ⟨_, more, rfl, hmore⟩ := kinds_eq_cons_iff.mp hinput
    apply (ih more hmore).bind
    intro value hvalue
    obtain ⟨_, _, hrest, -⟩ := kinds_eq_cons_iff.mp hvalue.2
    split
    · exact ⟨congrArg _ hvalue.1, hvalue.2⟩
    · rename_i hother
      exact (hother _ _ hrest).elim
  | expressionStatement _ hnext ih => exact accepts_statement (ih input hinput) hnext
  | expression _ hstop ih =>
    refine ih input hinput (hstop.mono fun kind => isOperator_of_bindsTightly) _
      fun after hafter => ?_
    rw [chain_of_not_bindsTightly]
    · exact ⟨rfl, hafter⟩
    · rw [hafter]
      exact hstop.mono fun kind => isOperator_of_bindsTightly
  | term _ ih => exact fun _ => ih input hinput 1 (by decide)
  | @addend levels operator _ right _ _ rest hoperator _ _ ihLeft ihRight =>
    intro hstop Q hchain
    have hprecedence := precedence_of_add_or_sub hoperator
    refine ihLeft input hinput (notBefore_cons.mpr ?_) Q fun after hafter => ?_
    · exact not_bindsTightly_of_lt (operator?_eq_some_iff.mpr rfl) (by omega)
    · obtain ⟨_, more, rfl, hmore⟩ := kinds_eq_cons_iff.mp hafter
      have hright : Accepts (Leaves right rest)
          (binary (Rules.nested levels).unary (operator.precedence + 1) more) := by
        apply ihRight more hmore _ (by omega) _
        intro after hleft
        rw [chain_of_not_bindsTightly]
        · exact ⟨rfl, hleft⟩
        · rwa [hleft, hprecedence]
      refine settles_chain_of_operator rfl (Nat.le_of_eq hprecedence.symm) hright
        fun tree left hp => ?_
      rw [hp.1]
      exact hchain left hp.2
  | operand _ ih =>
    intro least hleast Q hchain
    apply settles_binary (ih input hinput)
    intro first after hp
    rw [hp.1]
    exact hchain after hp.2
  | factor hoperator _ _ ihLeft ihRight =>
    intro least hleast Q hchain
    have hprecedence := precedence_of_mul_or_div hoperator
    apply ihLeft input hinput least hleast Q
    intro after hafter
    obtain ⟨_, more, rfl, hmore⟩ := kinds_eq_cons_iff.mp hafter
    refine settles_chain_of_operator rfl (by omega)
      (settles_binary_of_stop (ihRight more hmore) fun value rest _ => ?_)
      fun right rest hp => ?_
    · rw [hprecedence]
      exact fun kind _ => not_bindsTightly_three kind
    · rw [hp.1]
      exact hchain rest hp.2
  | least =>
    obtain ⟨_, _, rfl, hinteger⟩ := kinds_eq_cons_iff.mp hinput
    obtain ⟨_, _, rfl, hrest⟩ := kinds_eq_cons_iff.mp hinteger
    change Accepts _ ((Rules.nested _).unary _)
    rw [Rules.nested_eq_level]
    exact ⟨rfl, hrest⟩
  | negation _ ih =>
    obtain ⟨_, more, rfl, hmore⟩ := kinds_eq_cons_iff.mp hinput
    exact accepts_unary_of_minus (ih more hmore)
  | unsigned _ ih => exact accepts_unary (ih input hinput)
  | integer hmagnitude =>
    obtain ⟨_, _, rfl, hrest⟩ := kinds_eq_cons_iff.mp hinput
    have hvalue := integer?_natCast_eq_some_iff.mpr ⟨hmagnitude, rfl⟩
    simp only [Accepted, primary, hvalue]
    exact ⟨rfl, hrest⟩
  | float | string | true_ | false_ | null | name =>
    obtain ⟨_, _, rfl, hrest⟩ := kinds_eq_cons_iff.mp hinput
    exact ⟨rfl, hrest⟩
  | this hpath =>
    obtain ⟨_, more, rfl, hmore⟩ := kinds_eq_cons_iff.mp hinput
    exact (accepts_accessors hpath more hmore).bind fun _ hp => ⟨congrArg _ hp.1, hp.2⟩
  | nestedObject _ ih | nestedArray _ ih =>
    obtain ⟨_, more, rfl, hmore⟩ := kinds_eq_cons_iff.mp hinput
    exact (ih more hmore).map fun _ hp => hp
  | group _ ih =>
    obtain ⟨_, more, rfl, hmore⟩ := kinds_eq_cons_iff.mp hinput
    exact (accepts_group (ih more hmore)).map fun _ hp => hp

/-- A derived document is read. -/
theorem document_of_derives {tree : Node} {input : List Token}
    (h : DocumentDerives tree (kinds input)) : document input = .ok tree := by
  have hroot : Accepts (Leaves tree []) (root input) := by
    cases hkinds : kinds input with
    | nil =>
      rw [hkinds] at h
      cases h
    | cons kind start =>
      rw [hkinds] at h
      obtain ⟨_, more, rfl, hmore⟩ := kinds_eq_cons_iff.mp hkinds
      cases h with
      | object hobject => exact (accepted_of_derives hobject more hmore).map fun _ hp => hp
      | array harray => exact (accepted_of_derives harray more hmore).map fun _ hp => hp
  obtain ⟨parsed, hread, htree, hrest⟩ := hroot.exists
  rw [document, hread]
  simp only [bind, Except.bind]
  rw [List.map_eq_nil_iff.mp hrest, htree]
  rfl

/-- Exactly the derived documents are read. -/
theorem document_eq_ok_iff (input : List Token) (tree : Node) :
    document input = .ok tree ↔ DocumentDerives tree (kinds input) :=
  ⟨documentDerives_of_document, document_of_derives⟩

end Grammar

/-- A document has one tree. -/
theorem DocumentDerives.unique {tree other : Node} {start : List TokenKind}
    (h : DocumentDerives tree start) (hother : DocumentDerives other start) : other = tree := by
  obtain ⟨input, rfl⟩ := exists_kinds_eq start
  have hread := Grammar.document_of_derives h
  rw [Grammar.document_of_derives hother] at hread
  exact Except.ok.inj hread

/-- Tokens are parsed to a tree if those before their end are a document with it. -/
theorem parse_eq_ok_iff_document (tokens : List Token) (tree : Node) :
    parse tokens = .ok tree ↔ Grammar.document (beforeEnd tokens) = .ok tree := by
  unfold parse
  split
  · rename_i root hroot
    rw [hroot, Except.ok.injEq, Except.ok.injEq]
  · rename_i failure hfailure
    rw [hfailure]
    exact iff_of_false nofun nofun

/-- Tokens that a document is derived from have no end of input among them. -/
theorem beforeEnd_of_derives {tokens : List Token} {tree : Node}
    (h : DocumentDerives tree (kinds tokens)) : beforeEnd tokens = tokens := by
  rw [beforeEnd, List.takeWhile_eq_self_iff]
  intro token htoken
  exact decide_eq_true fun hkind =>
    h.endOfInput_notMem (List.mem_map.mpr ⟨token, htoken, hkind⟩)

/-- Tokens from which a tree is derived are parsed to that tree. -/
theorem parse_of_derives {tokens : List Token} {tree : Node}
    (h : DocumentDerives tree (kinds tokens)) : parse tokens = .ok tree := by
  rw [parse_eq_ok_iff_document, beforeEnd_of_derives h]
  exact Grammar.document_of_derives h

/-- A parsed tree is derived as an object or an array with nothing after it. -/
theorem exists_derives_of_parse {tokens : List Token} {tree : Node} (h : parse tokens = .ok tree) :
    ∃ phrase input, (phrase = .object ∨ phrase = .array) ∧ Derives phrase 128 tree input [] := by
  rw [parse_eq_ok_iff_document, Grammar.document_eq_ok_iff] at h
  generalize kinds (beforeEnd tokens) = start at h
  cases h with
  | object hobject => exact ⟨_, _, Or.inl rfl, hobject⟩
  | array harray => exact ⟨_, _, Or.inr rfl, harray⟩

/-- Tokens are read as a tree exactly if those before the first end of input are derived as
that tree, and then they are derived as no other. -/
theorem parse_eq_ok_iff_derives (tokens : List Token) (tree : Node) :
    (parse tokens = .ok tree ↔ DocumentDerives tree (kinds (beforeEnd tokens))) ∧
      ∀ other, DocumentDerives tree (kinds (beforeEnd tokens)) →
        DocumentDerives other (kinds (beforeEnd tokens)) → other = tree := by
  constructor
  · rw [parse_eq_ok_iff_document, Grammar.document_eq_ok_iff]
  · intro other htree hother
    exact htree.unique hother

end JsonTemplate
