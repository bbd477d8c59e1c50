import JsonTemplate.Proofs.Parser.Derivation

/-!
# What is read is derived

Every tree that a rule reads has a derivation from the tokens the rule was given to those it
left. Each rule puts together what other rules have read, so one lemma for each rule carries
the property from the rules of the level inside to those of a level, and an induction on the
levels closes it.

A chain of operators is read into a left operand that grows. What has been read so far is a
product while only the tighter operators have been seen, and a sum before which no tighter
operator stands afterwards.
-/

namespace JsonTemplate

/-- A rule that reads only what is derived as a phrase. -/
def ReadsPhrase (phrase : Phrase) (levels : Nat) (rule : Rule Node) : Prop :=
  ∀ input, Yields (fun tree rest => Derives phrase levels tree (kinds input) (kinds rest))
    (rule input)

/-- Rules that read only what is derived with the given number of levels inside. -/
structure Rules.Sound (levels : Nat) (rules : Rules) : Prop where
  unary : ReadsPhrase .unary levels rules.unary
  object : ReadsPhrase .object levels rules.object
  array : ReadsPhrase .array levels rules.array
  block : ReadsPhrase .block levels rules.block
  group : ∀ input, Yields (fun tree rest =>
    Derives .expression levels tree (kinds input) (.symbol .rightParen :: kinds rest))
    (rules.group input)

/-- The rules of the level inside, if there is one, read only what is derived. -/
def SoundInside (levels : Nat) (inner : Option Rules) : Prop :=
  ∀ rules ∈ inner, ∃ fewer, levels = fewer + 1 ∧ rules.Sound fewer

namespace Grammar

variable {levels : Nat} {inner : Option Rules} {rule : Rule Node}

/-- One level down the same is yielded as by the rules there. -/
theorem yields_descend {bound : Nat} {input : List Token} {P : Node → List Token → Prop}
    {use : Rules → Reading Node bound} (hinner : SoundInside levels inner)
    (h : ∀ rules fewer, levels = fewer + 1 → rules.Sound fewer → Yields P (use rules)) :
    Yields P (descend inner input use) := by
  cases inner with
  | none => trivial
  | some rules =>
    obtain ⟨fewer, hlevels, hsound⟩ := hinner rules rfl
    exact h rules fewer hlevels hsound

/-- A kind is an operator where it is the sign of one. -/
theorem operator?_eq_some_iff {kind : TokenKind} {operator : Operator} :
    operator? kind = some operator ↔ kind = .symbol operator.sign := by
  constructor
  · intro h
    unfold operator? at h
    split at h <;> cases h <;> rfl
  · rintro rfl
    cases operator <;> rfl

/-- A token that is no operator's sign. -/
theorem not_isOperator_of_operator? {kind : TokenKind} (h : operator? kind = none) :
    ¬IsOperator kind := by
  rintro ⟨operator, hkind⟩
  rw [operator?_eq_some_iff.mpr hkind] at h
  cases h

/-- A path goes on at a dot, a bracket or a token that is astray. -/
theorem extendsPath_iff (kind : TokenKind) :
    ExtendsPath kind ↔ kind = .symbol .dot ∨ kind = .symbol .leftBracket ∨ isStray kind := by
  unfold ExtendsPath isStray
  split <;> simp_all

/-- The accessors that are read are all there are. -/
theorem accessors_sound (input : List Token) :
    Yields (fun path rest => PathDerives path (kinds input) (kinds rest)) (accessors input) := by
  fun_induction accessors input with
  | case1 => trivial
  | case2 => trivial
  | case3 span name rest field hfield ih =>
    refine .bind ih fun more hmore => ?_
    obtain ⟨kind, span⟩ := name
    unfold fieldName? at hfield
    split at hfield <;> cases hfield
    · rename_i hname
      obtain rfl : kind = _ := hname
      exact .name hmore
    · rename_i hword
      obtain rfl : kind = _ := hword
      exact .word hmore
  | case4 => trivial
  | case5 => trivial
  | case6 span index accessor haccessor span' rest ih =>
    refine .bind ih fun more hmore => ?_
    obtain ⟨kind, span⟩ := index
    unfold indexAccessor? at haccessor
    split at haccessor <;> cases haccessor
    · rename_i hindex
      obtain rfl : kind = _ := hindex
      exact .index hmore
    · rename_i hkey
      obtain rfl : kind = _ := hkey
      exact .key hmore
  | case7 => trivial
  | case8 => trivial
  | case9 token rest hdot₁ hdot hbracket₁ hbracket hstray =>
    refine PathDerives.stop (notBefore_cons.mpr fun hextends => ?_)
    rcases (extendsPath_iff _).mp hextends with hkind | hkind | hkind
    · obtain ⟨kind, span⟩ := token
      obtain rfl : kind = _ := hkind
      cases rest with
      | nil => exact hdot₁ span rfl rfl
      | cons name rest => exact hdot span name rest rfl rfl
    · obtain ⟨kind, span⟩ := token
      obtain rfl : kind = _ := hkind
      cases rest with
      | nil => exact hbracket₁ span rfl rfl
      | cons index rest => exact hbracket span index rest rfl rfl
    · exact hstray hkind
  | case10 => exact .stop (notBefore_nil _)

/-- A magnitude is an integer up to the greatest one. -/
theorem integer?_natCast_eq_some_iff {magnitude : Nat} {value : Int64} :
    integer? magnitude = some value ↔ magnitude < 2 ^ 63 ∧ value = .ofInt magnitude := by
  have hcount : countFromZero magnitude = magnitude := rfl
  rw [integer?, hcount, Option.ite_none_right_eq_some, Option.some.injEq]
  exact and_congr_right fun _ => eq_comm

/-- A token that is an expression by itself. -/
theorem derives_of_leaf? {kind : TokenKind} {tree : Node} (h : leaf? kind = some tree)
    (rest : List TokenKind) : Derives .primary levels tree (kind :: rest) rest := by
  unfold leaf? at h
  split at h <;> cases h
  · exact .float
  · exact .string
  · exact .true_
  · exact .false_
  · exact .null
  · exact .name

/-- What an operand is read from derives it. -/
theorem primary_sound (h : SoundInside levels inner) :
    ReadsPhrase .primary levels (primary inner) := by
  intro input
  unfold primary
  split
  · trivial
  · rename_i token rest
    obtain ⟨kind, span⟩ := token
    dsimp only
    split
    · rename_i magnitude
      split
      · rename_i value hvalue
        obtain ⟨hmagnitude, rfl⟩ := integer?_natCast_eq_some_iff.mp hvalue
        exact Derives.integer hmagnitude
      · trivial
    · exact .bind (accessors_sound rest) fun path hpath => .this hpath
    · exact yields_descend h fun rules fewer hlevels hsound =>
        .map (hsound.object rest) fun _ hp => hlevels ▸ .nestedObject hp
    · exact yields_descend h fun rules fewer hlevels hsound =>
        .map (hsound.array rest) fun _ hp => hlevels ▸ .nestedArray hp
    · exact yields_descend h fun rules fewer hlevels hsound =>
        .map (hsound.group rest) fun _ hp => hlevels ▸ .group hp
    · split
      · rename_i tree htree
        exact derives_of_leaf? htree _
      · repeat' split
        all_goals trivial

/-- What an operand is read from behind a minus sign derives its negation. -/
theorem negated_sound (h : SoundInside levels inner) (rest : List Token) :
    Yields (fun tree after =>
      Derives .unary levels tree (.symbol .minus :: kinds rest) (kinds after))
      (negated inner rest) :=
  yields_descend h fun _ _ hlevels hsound =>
    .map (hsound.unary rest) fun _ hp => hlevels ▸ .negation hp

/-- What an operand with its signs is read from derives it. -/
theorem unary_sound (h : SoundInside levels inner) :
    ReadsPhrase .unary levels (unary inner) := by
  intro input
  unfold unary
  split
  · rename_i span rest
    split
    · rename_i magnitude span' after
      split
      · rename_i hmagnitude
        subst hmagnitude
        exact Derives.least
      · exact negated_sound h _
    · exact negated_sound h _
  · have hprimary := primary_sound h input
    cases hread : primary inner input with
    | ok parsed =>
      rw [hread] at hprimary
      exact .unsigned hprimary
    | error failure => trivial

/-- The next token is the sign of an operator that binds at least as tightly as given. -/
def BindsTightly (least : Nat) (kind : TokenKind) : Prop :=
  ∃ operator : Operator, kind = .symbol operator.sign ∧ least ≤ operator.precedence

/-- No two operators have one sign. -/
theorem sign_injective {operator other : Operator} (h : operator.sign = other.sign) :
    operator = other := by
  cases operator <;> cases other <;> first | rfl | cases h

/-- What is no operator binds at no tightness. -/
theorem not_bindsTightly_of_operator? {kind : TokenKind} (h : operator? kind = none)
    (least : Nat) : ¬BindsTightly least kind := by
  rintro ⟨operator, hkind, -⟩
  exact not_isOperator_of_operator? h ⟨operator, hkind⟩

/-- A looser operator does not bind tightly enough. -/
theorem not_bindsTightly_of_lt {kind : TokenKind} {operator : Operator} {least : Nat}
    (h : operator? kind = some operator) (hlt : operator.precedence < least) :
    ¬BindsTightly least kind := by
  rintro ⟨other, hkind, hle⟩
  rw [operator?_eq_some_iff] at h
  rw [h, TokenKind.symbol.injEq] at hkind
  rw [sign_injective hkind] at hlt
  omega

/-- No operator binds more tightly than a factor's. -/
theorem not_bindsTightly_three (kind : TokenKind) : ¬BindsTightly 3 kind := by
  rintro ⟨operator, -, hle⟩
  cases operator <;> simp [Operator.precedence] at hle

/-- Sums bind least tightly. -/
theorem precedence_of_add_or_sub {operator : Operator} (h : operator = .add ∨ operator = .sub) :
    operator.precedence = 1 := by
  rcases h with rfl | rfl <;> rfl

/-- Products bind most tightly. -/
theorem precedence_of_mul_or_div {operator : Operator} (h : operator = .mul ∨ operator = .div) :
    operator.precedence = 2 := by
  rcases h with rfl | rfl <;> rfl

/-- What binds tightly is an operator. -/
theorem isOperator_of_bindsTightly {least : Nat} {kind : TokenKind} (h : BindsTightly least kind) :
    IsOperator kind := by
  obtain ⟨operator, hkind, -⟩ := h
  exact ⟨operator, hkind⟩

/-- Every operator binds as tightly as a sum's. -/
theorem bindsTightly_of_isOperator {kind : TokenKind} (h : IsOperator kind) :
    BindsTightly 1 kind := by
  obtain ⟨operator, hkind⟩ := h
  refine ⟨operator, hkind, ?_⟩
  cases operator <;> decide

/-- A chain ends where no operator follows that binds tightly enough. -/
theorem chain_of_not_bindsTightly {operand : Rule Node} {least : Nat} {left : Node}
    {input : List Token} (h : NotBefore (BindsTightly least) (kinds input)) :
    chain operand least left input = .ok ⟨left, input, Nat.lt_succ_self _⟩ := by
  rw [chain.eq_def]
  split
  · rfl
  · rename_i token rest
    split
    · rfl
    · rename_i operator hoperator
      rw [if_pos]
      apply Nat.lt_of_not_le
      intro hle
      exact notBefore_cons.mp h ⟨operator, operator?_eq_some_iff.mp hoperator, hle⟩

/-- What follows a chain does not continue it. -/
theorem chain_stops (operand : Rule Node) (least : Nat) (left : Node) (input : List Token) :
    Yields (fun _ rest => NotBefore (BindsTightly least) (kinds rest))
      (chain operand least left input) := by
  fun_induction chain operand least left input with
  | case1 => exact notBefore_nil _
  | case2 least left token rest hoperator =>
    exact notBefore_cons.mpr (not_bindsTightly_of_operator? hoperator _)
  | case3 least left token rest operator hoperator hlt =>
    exact notBefore_cons.mpr (not_bindsTightly_of_lt hoperator hlt)
  | case4 least left token rest operator hoperator hle ih₁ ih₂ =>
    refine .bind (yields_true (operand rest)) fun first _ => ?_
    refine .bind (yields_true (chain operand _ first.value first.rest)) fun right _ => ?_
    exact .bind (ih₂ first right) fun all hall => hall

/-- A chain of factors is read into a product. -/
theorem chain_product_sound (h : ReadsPhrase .unary levels rule) {least : Nat} {left : Node}
    {input : List Token} {start : List TokenKind} (hleast : least = 2)
    (hleft : Derives .product levels left start (kinds input)) :
    Yields (fun tree rest => Derives .product levels tree start (kinds rest))
      (chain rule least left input) := by
  fun_induction chain rule least left input with
  | case1 => exact hleft
  | case2 => exact hleft
  | case3 => exact hleft
  | case4 least left token rest operator hoperator hle ih₁ ih₂ =>
    have hsign := operator?_eq_some_iff.mp hoperator
    have hfactor : operator = .mul ∨ operator = .div := by
      subst hleast
      cases operator <;> simp [Operator.precedence] at hle ⊢
    have hthree : operator.precedence + 1 = 3 := by
      rw [precedence_of_mul_or_div hfactor]
    refine .bind (h rest) fun first hfirst => ?_
    have hright : chain rule (operator.precedence + 1) first.value first.rest =
        .ok ⟨first.value, first.rest, Nat.lt_succ_self _⟩ := by
      rw [hthree]
      exact chain_of_not_bindsTightly fun kind _ => not_bindsTightly_three kind
    rw [hright]
    change Yields _ (chain rule least (.binary operator left first.value) first.rest >>= _)
    refine .bind (ih₂ first ⟨first.value, first.rest, Nat.lt_succ_self _⟩ hleast ?_)
      fun all hall => hall
    rw [kinds_cons, hsign] at hleft
    exact .factor hfactor hleft hfirst

/-- A chain of operators is read into a sum. -/
theorem chain_sum_sound (h : ReadsPhrase .unary levels rule) {least : Nat} {left : Node}
    {input : List Token} {start : List TokenKind} (hleast : least = 1)
    (hleft : Derives .product levels left start (kinds input) ∨
      Derives .sum levels left start (kinds input) ∧ NotBefore (BindsTightly 2) (kinds input)) :
    Yields (fun tree rest => Derives .sum levels tree start (kinds rest))
      (chain rule least left input) := by
  have hsum {tree : Node} {rest : List TokenKind}
      (htree : Derives .product levels tree start rest ∨
        Derives .sum levels tree start rest ∧ NotBefore (BindsTightly 2) rest) :
      Derives .sum levels tree start rest := htree.elim .term And.left
  fun_induction chain rule least left input with
  | case1 => exact hsum hleft
  | case2 => exact hsum hleft
  | case3 => exact hsum hleft
  | case4 least left token rest operator hoperator hle ih₁ ih₂ =>
    have hsign := operator?_eq_some_iff.mp hoperator
    rw [kinds_cons, hsign] at hleft
    refine .bind (h rest) fun first hfirst => ?_
    by_cases htight : operator.precedence = 2
    · have hproduct : Derives .product levels left start (.symbol operator.sign :: kinds rest) :=
        hleft.resolve_right fun hsum =>
          notBefore_cons.mp hsum.2 ⟨operator, rfl, Nat.le_of_eq htight.symm⟩
      have hright : chain rule (operator.precedence + 1) first.value first.rest =
          .ok ⟨first.value, first.rest, Nat.lt_succ_self _⟩ := by
        rw [htight]
        exact chain_of_not_bindsTightly fun kind _ => not_bindsTightly_three kind
      rw [hright]
      change Yields _ (chain rule least (.binary operator left first.value) first.rest >>= _)
      refine .bind (ih₂ first ⟨first.value, first.rest, Nat.lt_succ_self _⟩ hleast (Or.inl ?_))
        fun all hall => hall
      refine .factor ?_ hproduct hfirst
      cases operator <;> simp [Operator.precedence] at htight ⊢
    · have hterm : operator = .add ∨ operator = .sub := by
        cases operator <;> simp [Operator.precedence] at htight ⊢
      have htwo : operator.precedence + 1 = 2 := by
        rw [precedence_of_add_or_sub hterm]
      have hright := (chain_product_sound h htwo (.operand hfirst)).and
        (chain_stops rule (operator.precedence + 1) first.value first.rest)
      refine .bind hright fun right hright => ?_
      rw [htwo] at hright
      refine .bind (ih₂ first right hleast (Or.inr ⟨?_, hright.2⟩)) fun all hall => hall
      exact .addend hterm (hsum hleft) hright.1

/-- Operands joined by operators are read as the longest expression. -/
theorem binary_sound (h : ReadsPhrase .unary levels rule) :
    ReadsPhrase .expression levels (binary rule 1) := by
  intro input
  refine .bind (h input) fun first hfirst => ?_
  refine .bind ((chain_sum_sound h rfl (Or.inl (.operand hfirst))).and
    (chain_stops rule 1 first.value first.rest)) fun all hall => ?_
  exact .expression hall.1
    (hall.2.mono fun kind => bindsTightly_of_isOperator)

/-- Tokens of one kind in front of a phrase may be skipped if a production takes each. -/
theorem derives_of_skip {phrase : Phrase} {tree : Node} {sign : Symbol} {rest : List TokenKind}
    (hsign : ∀ input, Derives phrase levels tree input rest →
      Derives phrase levels tree (.symbol sign :: input) rest)
    {input : List Token} (h : Derives phrase levels tree (kinds (skip sign input)) rest) :
    Derives phrase levels tree (kinds input) rest := by
  induction input with
  | nil => exact h
  | cons token input ih =>
    by_cases hkind : token.kind = .symbol sign
    · rw [skip, List.dropWhile_cons_of_pos (by simpa using hkind)] at h
      rw [kinds_cons, hkind]
      exact hsign _ (ih h)
    · rwa [skip, List.dropWhile_cons_of_neg (by simpa using hkind)] at h

/-- What the members of an object are read from derives the object. -/
theorem members_sound (h : ReadsPhrase .value levels rule) (input : List Token) :
    Yields (fun members rest => Derives .object levels (.object members) (kinds input) (kinds rest))
      (members rule input) := by
  fun_induction members rule input with
  | case1 input hskip span rest hs =>
    apply derives_of_skip (fun _ => .objectComma)
    rw [hs]
    exact Derives.objectEnd
  | case2 input hskip raw span span' rest hs ih =>
    refine .bind (h rest) fun first hfirst => ?_
    refine .bind (ih first) fun more hmore => ?_
    apply derives_of_skip (fun _ => .objectComma)
    rw [hs]
    exact .objectMember hfirst hmore
  | case3 => trivial
  | case4 => trivial

/-- What the elements of an array are read from derives the array. -/
theorem elements_sound (h : ReadsPhrase .value levels rule) (input : List Token) :
    Yields (fun elements rest => Derives .array levels (.array elements) (kinds input) (kinds rest))
      (elements rule input) := by
  fun_induction elements rule input with
  | case1 => trivial
  | case2 input hskip token rest hs hkind =>
    apply derives_of_skip (fun _ => .arrayComma)
    rw [hs, kinds_cons, hkind]
    exact Derives.arrayEnd
  | case3 input hskip token rest hs hkind ih =>
    refine .bind (h (token :: rest)) fun first hfirst => ?_
    refine .bind (ih first) fun more hmore => ?_
    apply derives_of_skip (fun _ => .arrayComma)
    rw [hs]
    exact .arrayElement hfirst hmore

/-- What a value is read from derives it. -/
theorem value_sound (hinner : SoundInside levels inner)
    (h : ReadsPhrase .expression levels rule) :
    ReadsPhrase .value levels (value inner rule) := by
  have hexpression (input : List Token) : Yields (fun tree rest =>
      Derives .value levels tree (kinds input) (kinds rest)) (rule input) := by
    have hread := h input
    cases hr : rule input with
    | error failure => trivial
    | ok parsed =>
      rw [hr] at hread
      exact .expressionValue hread
  intro input
  unfold value
  split
  · rename_i token rest
    split
    · rename_i hkind
      apply yields_descend hinner
      intro rules fewer hlevels hsound
      split
      · refine .map (hsound.block _) fun _ hp => ?_
        rw [kinds_cons, hkind, hlevels]
        exact .blockValue hp
      · trivial
    · exact hexpression _
  · exact hexpression _

/-- The next token is one a statement can end before. -/
theorem endsStatement_iff (input : List Token) :
    endsStatement input ↔ ∃ next more, kinds input = next :: more ∧ EndsStatement next := by
  constructor
  · intro h
    unfold endsStatement at h
    split at h
    · exact ⟨_, _, rfl, Or.inl rfl⟩
    · exact ⟨_, _, rfl, Or.inr rfl⟩
    · cases h
  · rintro ⟨next, more, hinput, hnext⟩
    cases input with
    | nil => cases hinput
    | cons token rest =>
      obtain ⟨kind, span⟩ := token
      obtain ⟨rfl, -⟩ := List.cons.inj hinput
      rcases hnext with hkind | hkind <;> obtain rfl : kind = _ := hkind <;> rfl

/-- A statement is derived where the block lets it end. -/
theorem statement_sound (h : ReadsPhrase .expression levels rule) (input : List Token) :
    Yields (fun tree rest => endsStatement rest →
      Derives .statement levels tree (kinds input) (kinds rest)) (statement rule input) := by
  unfold statement
  split
  · split
    · exact .map (h _) fun _ hp _ => .binding hp
    · trivial
    · trivial
  · refine .bind (h _) fun value hvalue => ?_
    split
    · rename_i hrest
      rw [hrest] at hvalue
      apply settles_ok
      intro _
      change Derives _ _ _ _ (kinds value.rest)
      rw [hrest]
      exact .returning hvalue
    · trivial
  · exact .map (h _) fun _ hp _ => .assignment hp
  · have hread := h input
    cases hr : rule input with
    | error failure => trivial
    | ok parsed =>
      rw [hr] at hread
      apply settles_ok
      intro hends
      obtain ⟨next, more, hrest, hnext⟩ := (endsStatement_iff _).mp hends
      change Derives _ _ _ _ (kinds parsed.rest) at hread
      rw [hrest] at hread ⊢
      exact .expressionStatement hread hnext

/-- What the statements of a block are read from derives the block. -/
theorem statements_sound (h : ReadsPhrase .expression levels rule) (input : List Token) :
    Yields (fun statements rest =>
      Derives .block levels (.block statements) (kinds input) (kinds rest))
      (statements rule input) := by
  fun_induction statements rule input with
  | case1 => trivial
  | case2 input hskip token rest hs hkind =>
    apply derives_of_skip (fun _ => .blockSemicolon)
    rw [hs, kinds_cons, hkind]
    exact Derives.blockEnd
  | case3 input hskip token rest hs hkind ih =>
    refine .bind (statement_sound h (token :: rest)) fun first hfirst => ?_
    split
    · rename_i hends
      refine .bind (ih first) fun more hmore => ?_
      apply derives_of_skip (fun _ => .blockSemicolon)
      rw [hs]
      obtain ⟨next, after, hrest, hnext⟩ := (endsStatement_iff _).mp hends
      have hstatement := hfirst hends
      rw [hrest] at hstatement hmore
      exact .blockStatement hstatement hnext hmore
    · trivial

/-- What a group is read from derives its expression, up to the closing sign. -/
theorem group_sound (h : ReadsPhrase .expression levels rule) (input : List Token) :
    Yields (fun tree rest =>
      Derives .expression levels tree (kinds input) (.symbol .rightParen :: kinds rest))
      (group rule input) := by
  refine .bind (h input) fun inside hinside => ?_
  dsimp only
  split
  · rename_i hrest
    rw [hrest] at hinside
    exact hinside
  · trivial

end Grammar

namespace Rules

variable {levels : Nat}

/-- The rules of a level read what is derived if those of the level inside do. -/
theorem sound_level {inner : Option Rules} (h : SoundInside levels inner) :
    (level inner).Sound levels :=
  have expression := Grammar.binary_sound (Grammar.unary_sound h)
  have value := Grammar.value_sound h expression
  { unary := Grammar.unary_sound h
    object := fun input => .map (Grammar.members_sound value input) fun _ hp => hp
    array := fun input => .map (Grammar.elements_sound value input) fun _ hp => hp
    block := fun input => .map (Grammar.statements_sound expression input) fun _ hp => hp
    group := Grammar.group_sound expression }

/-- The rules of every level read what is derived with that many levels inside. -/
theorem sound_nested (levels : Nat) : (nested levels).Sound levels := by
  induction levels with
  | zero => exact sound_level fun _ h => nomatch h
  | succ levels ih =>
    apply sound_level
    intro rules h
    cases h
    exact ⟨levels, rfl, ih⟩

end Rules

namespace Grammar

/-- A document that is read is derived. -/
theorem documentDerives_of_document {input : List Token} {tree : Node}
    (h : document input = .ok tree) : DocumentDerives tree (kinds input) := by
  have hroot : Yields (fun tree rest => rest = [] → DocumentDerives tree (kinds input))
      (root input) := by
    unfold root
    split
    · exact .map ((Rules.sound_nested _).object _) fun parsed hp hrest =>
        .object (by rwa [show parsed.rest = [] from hrest] at hp)
    · exact .map ((Rules.sound_nested _).array _) fun parsed hp hrest =>
        .array (by rwa [show parsed.rest = [] from hrest] at hp)
    · trivial
  unfold document at h
  cases hr : root input with
  | error failure =>
    rw [hr] at h
    cases h
  | ok parsed =>
    rw [hr] at h hroot
    simp only [bind, Except.bind] at h
    split at h
    · rename_i hrest
      cases h
      exact hroot hrest
    · cases h

end Grammar

end JsonTemplate
