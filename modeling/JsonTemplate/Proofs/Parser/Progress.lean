import JsonTemplate.Proofs.Parser.Walks

/-!
# Reading by position goes forward

Every walk does what its rule does with the tokens before the first end of input, so it takes
tokens where the rule takes some, and ends where the rule ends. None of the guards of the reader is
ever needed: it steps over no end of input, and looks at no token that is not there. All this rests
on the grammar, in which no phrase starts with an end of input, goes on with it or is closed by it.

The proof is one lemma for each rule, by the recursion of the rule on the tokens, and an induction
on the levels that are left.
-/

namespace JsonTemplate

open Cursor

namespace EndedTape

open Grammar
open Rules (inside nested_eq_level)

variable {ended : EndedTape} {levels : Nat} {input : List Token}

/-- The walks of a level do what its rules do with the tokens after their signs. -/
structure FollowsRules (ended : EndedTape) (levels : Nat) : Prop where
  unary : ∀ input, ended.Follows levels input ended.tape.unary
    (outcomeOf ((Rules.nested levels).unary input))
  object : ∀ span rest, ended.Follows levels (⟨.symbol .leftBrace, span⟩ :: rest)
    ended.tape.object (outcomeOf ((Rules.nested levels).object rest))
  array : ∀ span rest, ended.Follows levels (⟨.symbol .leftBracket, span⟩ :: rest)
    ended.tape.array (outcomeOf ((Rules.nested levels).array rest))
  block : ∀ span span' rest, ended.Follows levels
    (⟨.symbol .arrow, span⟩ :: ⟨.symbol .leftBrace, span'⟩ :: rest)
    ended.tape.block (outcomeOf ((Rules.nested levels).block rest))
  group : ∀ span rest, ended.Follows levels (⟨.symbol .leftParen, span⟩ :: rest)
    ended.tape.group (outcomeOf ((Rules.nested levels).group rest))

/-- The walks inside a level do what the rules there do. -/
def FollowsInside (ended : EndedTape) (levels : Nat) : Prop :=
  ∀ below, levels = below + 1 → ended.FollowsRules below

/-- The accessors are walked through as they are read. -/
theorem accessors_follows (input : List Token) :
    ended.Follows levels input ended.tape.accessors (outcomeOf (accessors input)) := by
  induction input using accessors.induct with
  | case1 span =>
    rw [Tape.accessors, accessors]
    exact .current (.advance (.current (.fail _)))
  | case2 span name rest hname =>
    rw [Tape.accessors, outcomeOf_accessors_unnamed hname]
    refine .current (.advance (.current ?_))
    simp only [headOf_cons, hname]
    exact .fail _
  | case3 span name rest field hname ih =>
    rw [Tape.accessors, outcomeOf_accessors_field hname]
    refine .current (.advance (.current ?_))
    simp only [headOf_cons, hname]
    exact .advance ih.map
  | case4 span =>
    rw [Tape.accessors, accessors]
    exact .current (.advance (.current (.fail _)))
  | case5 span index rest haccessor =>
    rw [Tape.accessors, outcomeOf_accessors_unindexed haccessor]
    refine .current (.advance (.current ?_))
    simp only [headOf_cons, haccessor]
    exact .fail _
  | case6 span index accessor haccessor span' rest ih =>
    rw [Tape.accessors, outcomeOf_accessors_index haccessor]
    refine .current (.advance (.current ?_))
    simp only [headOf_cons, haccessor]
    exact .advance (.expect ih.map)
  | case7 span index accessor haccessor found hclose =>
    have hfound := notBefore_of_forall_ne hclose
    rw [Tape.accessors, outcomeOf_accessors_unclosed haccessor _ hfound]
    refine .current (.advance (.current ?_))
    simp only [headOf_cons, haccessor]
    exact .advance (.unexpected hfound)
  | case8 token rest hdot₁ hdot hbracket₁ hbracket hstray =>
    have hdot : token.kind ≠ .symbol .dot := by grind [isStray]
    have hbracket : token.kind ≠ .symbol .leftBracket := by grind [isStray]
    rw [Tape.accessors, outcomeOf_accessors_stray hstray]
    refine .current ?_
    rw [headOf_cons]
    split
    · contradiction
    · contradiction
    · rw [if_pos hstray]
      exact .fail _
  | case9 token rest hdot₁ hdot hbracket₁ hbracket hstray =>
    have hread : outcomeOf (accessors (token :: rest)) = .read [] (token :: rest) := by
      rw [accessors, if_neg hstray]
      · rfl
      all_goals assumption
    have hkind := notBefore_cons.mp (notBefore_of_accessors hread)
    rw [extendsPath_iff, not_or, not_or] at hkind
    rw [Tape.accessors, hread]
    refine .current ?_
    rw [headOf_cons]
    split
    · exact absurd ‹_› hkind.1
    · exact absurd ‹_› hkind.2.1
    · rw [if_neg hstray]
      exact .pure _
  | case10 =>
    rw [Tape.accessors, accessors]
    exact .current (.pure _)

/-- A path is walked through as it is read. -/
theorem path_follows (span : Span) (rest : List Token) :
    ended.Follows levels (⟨.keyword .this, span⟩ :: rest) ended.tape.path
      ((outcomeOf (accessors rest)).map .this) :=
  .start (accessors_follows rest).map

/-- An operand without a minus sign is walked through as it is read. -/
theorem primary_follows (h : ended.FollowsInside levels) (input : List Token) :
    ended.Follows levels input ended.tape.primary (outcomeOf (primary (inside levels) input)) := by
  rw [Tape.primary]
  refine .current ?_
  cases input with
  | nil => exact .fail _
  | cons token rest =>
    obtain ⟨kind, span⟩ := token
    cases kind with
    | integer magnitude =>
      cases hvalue : integer? magnitude with
      | some value =>
        simp only [outcomeOf_primary_integer hvalue, headOf_cons, hvalue]
        exact .advance (.pure _)
      | none =>
        simp only [outcomeOf_primary_tooLarge hvalue, headOf_cons, hvalue]
        exact .fail _
    | keyword word =>
      cases word with
      | this =>
        have hpath : outcomeOf (primary (inside levels) (⟨.keyword .this, span⟩ :: rest)) =
            (outcomeOf (accessors rest)).map .this := outcomeOf_bind fun _ => rfl
        rw [hpath]
        exact path_follows span rest
      | true_ | false_ | null => exact .advance (.pure _)
      | _ => exact .fail _
    | symbol sign =>
      cases sign with
      | leftBrace =>
        refine .descend fun below hbelow => ?_
        rw [outcomeOf_widen]
        exact (h below hbelow).object span rest
      | leftBracket =>
        refine .descend fun below hbelow => ?_
        rw [outcomeOf_widen]
        exact (h below hbelow).array span rest
      | leftParen =>
        refine .descend fun below hbelow => ?_
        rw [outcomeOf_widen]
        exact (h below hbelow).group span rest
      | _ => exact .fail _
    | endOfInput => exact .fail _
    | _ => exact .advance (.pure _)

/-- A minus sign is in the outcome of the operand, on the tokens of the operand. -/
theorem outcomeOf_negated (inner : Option Rules) (rest : List Token) :
    outcomeOf (negated inner rest) =
      (outcomeOf (Grammar.descend inner rest (·.unary rest))).map .negate := by
  cases inner with
  | none => rfl
  | some rules => exact outcomeOf_map fun _ => ⟨rfl, rfl⟩

/-- An operand with its minus signs is walked through as it is read. -/
theorem unary_follows (h : ended.FollowsInside levels) (input : List Token) :
    ended.Follows levels input ended.tape.unary (outcomeOf (unary (inside levels) input)) := by
  rw [Tape.unary]
  refine .current ?_
  obtain hminus | ⟨span, rest, rfl⟩ := notBefore_or_eq_cons (.symbol .minus) input
  · rw [unary_of_notBefore hminus, if_neg (headOf_kind_ne hminus nofun)]
    exact primary_follows h input
  · rw [headOf_cons, if_pos rfl]
    refine .advance (.current ?_)
    obtain hgreatest | ⟨span', after, rfl⟩ :=
      notBefore_or_eq_cons (.integer Numeral.greatestInteger) rest
    · rw [unary_of_minus span hgreatest, if_neg (headOf_kind_ne hgreatest nofun),
        outcomeOf_negated]
      exact (Follows.descend fun below hbelow => (h below hbelow).unary rest).map
    · rw [outcomeOf_unary_least, headOf_cons, if_pos rfl]
      exact .advance (.pure _)

/-- A chain of operators is walked through as it is read. -/
theorem chain_follows (h : ended.FollowsInside levels) (least : Nat) (left : Node)
    (input : List Token) : ended.Follows levels input (ended.tape.chain least left)
      (outcomeOf (chain (unary (inside levels)) least left input)) := by
  induction least, left, input using chain.induct with
  | case1 =>
    rw [Tape.chain, chain]
    exact .current (.pure _)
  | case2 least left token rest hoperator =>
    rw [Tape.chain, chain]
    refine .current ?_
    simp only [headOf_cons, hoperator]
    exact .pure _
  | case3 least left token rest operator hoperator hlt =>
    rw [Tape.chain, chain]
    refine .current ?_
    simp only [headOf_cons, hoperator, if_pos hlt]
    exact .pure _
  | case4 least left token rest operator hoperator hle ih₁ ih₂ =>
    rw [Tape.chain, outcomeOf_chain_of_operator hoperator hle]
    refine .current ?_
    simp only [headOf_cons, hoperator, if_neg hle]
    refine .advance ?_
    rw [Tape.binary, bind_assoc]
    refine (unary_follows h rest).andThen fun value after hvalue => ?_
    obtain ⟨first, -, rfl, rfl⟩ := exists_parsed_of_outcomeOf hvalue
    refine (ih₁ first).andThen fun value after hvalue => ?_
    obtain ⟨right, -, rfl, rfl⟩ := exists_parsed_of_outcomeOf hvalue
    exact ih₂ first right

/-- An expression is walked through as it is read. -/
theorem expression_follows (h : ended.FollowsInside levels) (input : List Token) :
    ended.Follows levels input (ended.tape.binary 1)
      (outcomeOf (expressionAround (inside levels) input)) := by
  rw [Tape.binary, expressionAround, outcomeOf_binary]
  exact (unary_follows h input).andThen fun first rest _ => chain_follows h 1 first rest

/-- A value is walked through as it is read. -/
theorem value_follows (h : ended.FollowsInside levels) (input : List Token) :
    ended.Follows levels input ended.tape.value
      (outcomeOf (value (inside levels) (expressionAround (inside levels)) input)) := by
  rw [Tape.value]
  refine .current ?_
  obtain harrow | ⟨span, rest, rfl⟩ := notBefore_or_eq_cons (.symbol .arrow) input
  · rw [value_of_notBefore harrow, if_neg (headOf_kind_ne harrow nofun)]
    exact expression_follows h input
  · rw [headOf_cons, if_pos rfl, value, if_pos rfl]
    refine .descend fun below hbelow => ?_
    obtain hbrace | ⟨span', body, rfl⟩ := notBefore_or_eq_cons (.symbol .leftBrace) rest
    · rw [Tape.block]
      split
      · exact absurd rfl (notBefore_cons.mp hbrace)
      · exact .start (.unexpected hbrace)
    · rw [outcomeOf_widen]
      exact (h below hbelow).block span span' body

/-- Members are walked through as they are read. -/
theorem members_follows (h : ended.FollowsInside levels) (input : List Token) :
    ended.Follows levels input ended.tape.members
      (outcomeOf (members (value (inside levels) (expressionAround (inside levels))) input)) := by
  induction input using members.induct with
  | case1 input _ span rest hs =>
    rw [Tape.members]
    apply Follows.skip outcomeOf_members_comma
    rw [hs, outcomeOf_members_close]
    exact .current (.advance (.pure _))
  | case2 input _ raw span span' rest hs ih =>
    rw [Tape.members]
    apply Follows.skip outcomeOf_members_comma
    rw [hs, outcomeOf_members_member]
    refine .current (.advance (.expect ?_))
    refine (value_follows h rest).andThen fun value after hvalue => ?_
    obtain ⟨first, -, rfl, rfl⟩ := exists_parsed_of_outcomeOf hvalue
    exact (ih first).map
  | case3 input _ raw span found hcolon hs =>
    have hfound := notBefore_of_forall_ne hcolon
    rw [Tape.members]
    apply Follows.skip outcomeOf_members_comma
    rw [hs, outcomeOf_members_name raw span hfound]
    exact .current (.advance (.unexpected hfound))
  | case4 input _ hbrace hcolon hname =>
    rw [Tape.members]
    apply Follows.skip outcomeOf_members_comma
    refine .current ?_
    cases hs : skip .comma input with
    | nil =>
      rw [outcomeOf_members]
      exact .fail _
    | cons token rest =>
      rw [hs] at hbrace hname
      have hbrace : token.kind ≠ .symbol .rightBrace := fun hkind =>
        hbrace token.span _ (by rw [← hkind])
      have hname (raw : String) : token.kind ≠ .string raw := fun hkind =>
        hname raw token.span _ (by rw [← hkind])
      rw [outcomeOf_members_stray (kind_ne_of_skip hs) hbrace hname, headOf_cons]
      split
      · exact absurd ‹_› hbrace
      · exact absurd ‹_› (hname _)
      · exact .fail _

/-- A walk over a list of parts does what the rule for the list does, if the walks over a part and
over what stands after one do. -/
theorem parts_follow {α β : Type} {separator closing : Symbol} {what : Expectation}
    {part : Rule β} {after : β → Reader (List α)} {list : Rule (List α)} {walk : Walk (List α)}
    {partWalk : Walk β} {next : β → Walk (List α)}
    (h : ReadsParts separator closing (.expected what) part after list)
    (hwalk : walk = do
      ended.tape.skip separator
      let kind := (← ended.tape.current).kind
      if kind = .symbol closing then
        ended.tape.advance
        return []
      else if kind = .endOfInput then ended.tape.fail (.expected what)
      else partWalk >>= next)
    (hpart : ∀ input, ended.Follows levels input partWalk (outcomeOf (part input)))
    (hafter : ∀ value rest, ended.Follows levels rest walk (outcomeOf (list rest)) →
      ended.Follows levels rest (next value) (after value rest))
    (input : List Token) : ended.Follows levels input walk (outcomeOf (list input)) := by
  obtain ⟨length, hlength⟩ : ∃ length, input.length = length := ⟨_, rfl⟩
  induction length using Nat.strong_induction_on generalizing input with
  | h length ih =>
    rw [hwalk]
    apply Follows.skip h.separator_cons
    refine .current ?_
    cases hs : skip separator input with
    | nil =>
      rw [h]
      exact .fail _
    | cons token rest =>
      have hkind : token.kind ≠ .symbol separator := kind_ne_of_skip hs
      rw [h, skip_cons_of_ne hkind]
      dsimp only [headOf_cons]
      split
      · exact .advance (.pure _)
      · refine .of_kind_ne fun hne => ?_
        rw [if_neg hne]
        refine (hpart (token :: rest)).andThen fun value left hvalue => ?_
        obtain ⟨parsed, -, -, rfl⟩ := exists_parsed_of_outcomeOf hvalue
        have hskip := length_skip_le separator input
        rw [hs] at hskip
        exact hafter _ _ (ih _ (hlength ▸ parsed.length_rest_lt.trans_le hskip) _ rfl)

/-- Elements are walked through as they are read. -/
theorem elements_follows (h : ended.FollowsInside levels) (input : List Token) :
    ended.Follows levels input ended.tape.elements
      (outcomeOf (elements (value (inside levels) (expressionAround (inside levels))) input)) :=
  parts_follow elements_readsParts (Tape.elements.eq_1 _) (value_follows h)
    (fun _ _ hrest => hrest.map) input

/-- A binding is walked through as it is read. -/
theorem binding_follows (h : ended.FollowsInside levels) (span : Span) (rest : List Token) :
    ended.Follows levels (⟨.keyword .var, span⟩ :: rest) ended.tape.statement
      (outcomeOf (statement (expressionAround (inside levels))
        (⟨.keyword .var, span⟩ :: rest))) := by
  rw [Tape.statement]
  refine .current (.advance (.current ?_))
  cases rest with
  | nil => exact .fail _
  | cons token rest =>
    obtain ⟨kind, span'⟩ := token
    cases kind with
    | identifier name =>
      obtain hassign | ⟨span'', rest, rfl⟩ := notBefore_or_eq_cons (.symbol .assign) rest
      · rw [outcomeOf_statement_unassigned name span span' hassign]
        exact .advance (.unexpected hassign)
      · rw [outcomeOf_statement_binding name ⟨span, span', span''⟩]
        exact .advance (.expect (expression_follows h rest).map)
    | _ => exact .fail _

/-- A return is walked through as it is read. -/
theorem return_follows (h : ended.FollowsInside levels) (span : Span) (rest : List Token) :
    ended.Follows levels (⟨.keyword .return_, span⟩ :: rest) ended.tape.statement
      (outcomeOf (statement (expressionAround (inside levels))
        (⟨.keyword .return_, span⟩ :: rest))) := by
  rw [Tape.statement, outcomeOf_statement_return]
  refine .current (.advance ((expression_follows h rest).andThen fun value rest _ => .current ?_))
  obtain hsemicolon | ⟨span', rest, rfl⟩ := notBefore_or_eq_cons (.symbol .semicolon) rest
  · rw [afterReturn_of_notBefore value hsemicolon, if_neg (headOf_kind_ne hsemicolon nofun)]
    exact .fail _
  · exact .pure _

/-- A statement is walked through as it is read. -/
theorem statement_follows (h : ended.FollowsInside levels) (input : List Token) :
    ended.Follows levels input ended.tape.statement
      (outcomeOf (statement (expressionAround (inside levels)) input)) := by
  cases input with
  | nil =>
    rw [Tape.statement]
    exact .current (expression_follows h [])
  | cons token rest =>
    obtain ⟨kind, span⟩ := token
    by_cases hvar : kind = .keyword .var
    · subst hvar
      exact binding_follows h span rest
    by_cases hreturn : kind = .keyword .return_
    · subst hreturn
      exact return_follows h span rest
    rw [Tape.statement]
    refine .current ?_
    by_cases hname : ∃ name, kind = .identifier name
    · obtain ⟨name, rfl⟩ := hname
      refine .peek ?_
      obtain hassign | ⟨span', rest, rfl⟩ := notBefore_or_eq_cons (.symbol .assign) rest
      · rw [outcomeOf_statement_name name span hassign, if_neg (headOf_kind_ne hassign nofun)]
        exact expression_follows h _
      · rw [outcomeOf_statement_assignment name ⟨span, span'⟩]
        exact .advance (.advance (expression_follows h rest).map)
    · rw [outcomeOf_statement_expression hvar hreturn (not_exists.mp hname), headOf_cons]
      split
      · contradiction
      · contradiction
      · exact absurd ⟨_, ‹_›⟩ hname
      · exact expression_follows h _

/-- A statement ends before some tokens exactly if it ends at their head. -/
theorem endsStatement_iff_headOf (rest : List Token) :
    endsStatement rest ↔ EndsStatement (ended.headOf rest).kind := by
  cases rest with
  | nil => exact ⟨nofun, fun h => h.elim nofun nofun⟩
  | cons token rest => simp [endsStatement_iff]

/-- Statements are walked through as they are read. -/
theorem statements_follows (h : ended.FollowsInside levels) (input : List Token) :
    ended.Follows levels input ended.tape.statements
      (outcomeOf (statements (expressionAround (inside levels)) input)) := by
  refine parts_follow statements_readsParts (Tape.statements.eq_1 _) (statement_follows h)
    (fun value rest hrest => .current ?_) input
  have hends : EndsStatement (ended.headOf rest).kind ↔ endsStatement rest :=
    (endsStatement_iff_headOf rest).symm
  unfold EndsStatement at hends
  rw [afterStatement]
  dsimp only
  split
  · rw [if_pos (hends.mp ‹_›)]
    exact hrest.map
  · rw [if_neg (mt hends.mpr ‹_›)]
    exact .fail _

/-- An expression in parentheses is walked through as it is read. -/
theorem group_follows (h : ended.FollowsInside levels) (span : Span) (rest : List Token) :
    ended.Follows levels (⟨.symbol .leftParen, span⟩ :: rest) ended.tape.group
      (outcomeOf (group (expressionAround (inside levels)) rest)) := by
  rw [Tape.group, outcomeOf_group]
  refine .start ((expression_follows h rest).andThen fun value rest _ => ?_)
  obtain hparen | ⟨span', rest, rfl⟩ := notBefore_or_eq_cons (.symbol .rightParen) rest
  · rw [afterGrouped_of_notBefore value hparen]
    exact .unexpected hparen
  · exact .expect (.pure _)

/-- The walks of a level do what its rules do if those inside do. -/
theorem followsRules_of_inside (h : ended.FollowsInside levels) : ended.FollowsRules levels := by
  have hmap {α : Type} {f : α → Node} {bound : Nat} {reading : Reading α bound} :
      outcomeOf ((·.map f (Nat.le_refl _)) <$> reading) = (outcomeOf reading).map f :=
    outcomeOf_map fun _ => ⟨rfl, rfl⟩
  constructor <;> rw [nested_eq_level]
  · exact unary_follows h
  · intro span rest
    rw [Tape.object, Rules.level, hmap]
    exact .start (members_follows h rest).map
  · intro span rest
    rw [Tape.array, Rules.level, hmap]
    exact .start (elements_follows h rest).map
  · intro span span' rest
    rw [Tape.block, Rules.level, hmap]
    exact .start (.expect (statements_follows h rest).map)
  · exact group_follows h

/-- On every level the walks do what the rules do. -/
theorem followsRules (ended : EndedTape) (levels : Nat) : ended.FollowsRules levels := by
  induction levels with
  | zero => exact followsRules_of_inside nofun
  | succ levels ih =>
    refine followsRules_of_inside fun below hbelow => ?_
    obtain rfl := Nat.succ.inj hbelow
    exact ih

/-- On every level, the walks inside it do what the rules there do. -/
theorem followsInside (ended : EndedTape) (levels : Nat) : ended.FollowsInside levels :=
  fun below _ => followsRules ended below

/-- The root is walked through as it is read. -/
theorem root_follows (input : List Token) :
    ended.Follows nestingLimit input ended.tape.root (outcomeOf (root input)) := by
  have h := followsRules ended nestingLimit
  rw [Tape.root]
  refine .current ?_
  obtain hbrace | ⟨span, rest, rfl⟩ := notBefore_or_eq_cons (.symbol .leftBrace) input
  · obtain hbracket | ⟨span, rest, rfl⟩ := notBefore_or_eq_cons (.symbol .leftBracket) input
    · rw [outcomeOf_root_of_notBefore hbrace hbracket]
      split
      · exact absurd ‹_› (headOf_kind_ne hbrace nofun)
      · exact absurd ‹_› (headOf_kind_ne hbracket nofun)
      · exact .fail _
    · rw [root, outcomeOf_widen]
      exact h.array span rest
  · rw [root, outcomeOf_widen]
    exact h.object span rest

/-- What a reader gives for a document that is read or not. -/
def halted {α : Type} (ended : EndedTape) (result : Except Failure α) : Except Halt α :=
  result.mapError fun failure => .fault (failure.toError ended.finish.start)

/-- A document is walked through up to the end that its rule comes to. -/
theorem document_reaches (input : List Token) : ∃ rest,
    ended.Reaches nestingLimit input ended.tape.document
      (ended.halted (Grammar.document input)) rest := by
  have hroot : ended.Follows nestingLimit input ended.tape.root (outcomeOf (root input)) :=
    root_follows input
  rcases houtcome : outcomeOf (root input) with ⟨fault | tree, rest⟩
  · refine ⟨rest, ?_⟩
    rw [houtcome] at hroot
    rw [document_of_fail houtcome]
    exact hroot.bind_error
  · refine ⟨rest, ?_⟩
    rw [houtcome] at hroot
    refine Reaches.bind_ok hroot (reaches_current.bind_ok ?_)
    cases rest with
    | nil =>
      rw [document_of_read houtcome]
      exact .pure tree
    | cons token rest =>
      rw [document_of_read_cons houtcome, headOf_cons]
      refine (Follows.of_kind_ne fun hne => ?_ :
        ended.Follows nestingLimit (token :: rest) _ (.fail .trailing (token :: rest)))
      rw [if_neg hne]
      exact .fail _

end EndedTape

/-- A walk that has led from one state to another in order: it found all the tokens that it looked
for, is on the level where it started, and is further on in the tokens if it gives a value. -/
structure Progress {α : Type} (tokens : List Token) (state : State) (result : Except Halt α)
    (after : State) : Prop where
  continues : state.Continues tokens after
  within : after.cursor.Within tokens
  depth_eq : after.cursor.depth = state.cursor.depth
  inRange : result ≠ .error .outOfRange
  forward : ∀ value, result = .ok value → state.cursor.position < after.cursor.position

/-- A walk comes to an end in order from every cursor within the tokens and the levels. -/
def Progresses {α : Type} (tokens : List Token) (walk : Walk α) : Prop :=
  ∀ state : State, state.cursor.Within tokens →
    ∃ result after, walk state = some (result, after) ∧ Progress tokens state result after

namespace EndedTape

variable {ended : EndedTape} {α : Type} {walk : Walk α}

/-- A walk that takes tokens when it gives a value makes progress. -/
theorem Reaches.exists_progress {levels : Nat} {input rest : List Token}
    {result : Except Halt α} (h : ended.Reaches levels input walk result rest)
    (hrange : result ≠ .error .outOfRange)
    (hlength : ∀ value, result = .ok value → rest.length < input.length) {state : State}
    (hstate : ended.Before levels input state.cursor) :
    ∃ result after, walk state = some (result, after) ∧
      Progress ended.tape.tokens state result after := by
  obtain ⟨after, hwalk, hafter, hmoves⟩ := h state hstate
  refine ⟨result, after, hwalk, hmoves, hafter.within, ?_, hrange, fun value hvalue => ?_⟩
  · exact Nat.add_right_cancel (hafter.depth_add.trans hstate.depth_add.symm)
  · have hlt := hlength value hvalue
    have hbefore := hstate.position_add_length
    have hleft := hafter.position_add_length
    omega

/-- A walk that does what a rule does makes progress, if the rule takes tokens. -/
theorem Follows.exists_progress {levels : Nat} {input : List Token} {outcome : ParseOutcome α}
    (h : ended.Follows levels input walk outcome)
    (hlength : ∀ value rest, outcome = .read value rest → rest.length < input.length)
    {state : State} (hstate : ended.Before levels input state.cursor) :
    ∃ result after, walk state = some (result, after) ∧
      Progress ended.tape.tokens state result after := by
  obtain ⟨fault | value, rest⟩ := outcome
  · exact Reaches.exists_progress h nofun nofun hstate
  · exact Reaches.exists_progress h nofun (fun _ _ => hlength value rest rfl) hstate

/-- A walk that does what a rule does makes progress. -/
theorem progresses_of_rule {rule : Nat → Rule α}
    (h : ∀ levels input, ended.Follows levels input walk (outcomeOf (rule levels input))) :
    Progresses ended.tape.tokens walk := by
  intro state hstate
  refine (h _ _).exists_progress (fun value rest hread => ?_) (.of_within hstate)
  obtain ⟨parsed, -, -, rfl⟩ := exists_parsed_of_outcomeOf hread
  exact parsed.length_rest_lt

/-- A walk with an opening sign makes progress if it does so from that sign on, since it stops at
any other token. -/
theorem progresses_of_sign {sign : TokenKind} {next : Unit → Walk α}
    (hwalk : walk = ended.tape.start sign >>= next) (hsign : sign ≠ .endOfInput)
    (h : ∀ levels span rest, ∃ outcome,
      ended.Follows levels (⟨sign, span⟩ :: rest) walk outcome ∧
        ∀ value left, outcome = .read value left → left.length ≤ rest.length) :
    Progresses ended.tape.tokens walk := by
  intro state hstate
  have hbefore := Before.of_within hstate
  obtain hother | ⟨span, rest, hinput⟩ :=
    notBefore_or_eq_cons sign (ended.front.drop state.cursor.position)
  · rw [hwalk]
    exact (Reaches.unopened (headOf_kind_ne hother hsign)).exists_progress nofun nofun hbefore
  · rw [hinput] at hbefore
    obtain ⟨outcome, hfollows, hlength⟩ := h (nestingLimit - state.cursor.depth) span rest
    exact hfollows.exists_progress
      (fun value left hread => Nat.lt_succ_of_le (hlength value left hread)) hbefore

/-- Outcomes of a rule leave no more tokens than there are. -/
theorem length_le_of_rule {rule : Rule Node} {rest : List Token} (value : Node)
    (left : List Token) (h : outcomeOf (rule rest) = .read value left) :
    left.length ≤ rest.length := by
  obtain ⟨parsed, -, -, rfl⟩ := exists_parsed_of_outcomeOf h
  exact parsed.length_rest_lt.le

/-- A block makes progress, from wherever it is read. -/
theorem progresses_block (ended : EndedTape) : Progresses ended.tape.tokens ended.tape.block := by
  refine progresses_of_sign (Tape.block.eq_1 _) nofun fun levels span rest => ?_
  obtain hbrace | ⟨span', body, rfl⟩ := notBefore_or_eq_cons (.symbol .leftBrace) rest
  · refine ⟨.fail (.expected .braceAfterArrow) rest, ?_, nofun⟩
    rw [Tape.block]
    exact .start (.unexpected hbrace)
  · refine ⟨_, (followsRules ended levels).block span span' body, fun value left h => ?_⟩
    exact (length_le_of_rule value left h).trans (Nat.le_succ _)

/-- A path makes progress, from wherever it is read. -/
theorem progresses_path (ended : EndedTape) : Progresses ended.tape.tokens ended.tape.path := by
  refine progresses_of_sign rfl nofun fun levels span rest =>
    ⟨_, path_follows span rest, fun value left h => ?_⟩
  obtain ⟨path, hpath⟩ := ParseOutcome.exists_eq_read_of_map h
  obtain ⟨parsed, -, -, rfl⟩ := exists_parsed_of_outcomeOf hpath
  exact Nat.le_of_lt_succ parsed.length_rest_lt

end EndedTape

/-- The tokens that are parsed, divided at their first end of input. -/
theorem exists_endedTape (tokens : List Token) : ∃ ended : EndedTape,
    ended.tape = ⟨terminated tokens⟩ ∧ ended.front = beforeEnd tokens ∧
      ended.finish.start = endPosition tokens := by
  obtain ⟨span, more, hterminated, hspan⟩ := exists_terminated_eq tokens
  exact ⟨⟨beforeEnd tokens, span, more, fun _ => ne_endOfInput_of_mem_beforeEnd⟩,
    congrArg Tape.mk hterminated.symm, rfl, hspan⟩

/-- Reading by position comes to an end with what is parsed, and all that is done on the way stays
within the tokens and the levels. -/
theorem reading_eq_parse (tokens : List Token) : ∃ after,
    Tape.reading tokens = some ((parse tokens).mapError .fault, after) ∧
      after.cursor.depth = 0 ∧ ∀ move ∈ after.moves, move.Within (terminated tokens) := by
  obtain ⟨ended, htape, hfront, hfinish⟩ := exists_endedTape tokens
  obtain ⟨rest, hdocument⟩ := ended.document_reaches ended.front
  obtain ⟨after, hreading, hafter, hmoves⟩ := hdocument ⟨⟨0, 0⟩, []⟩ ⟨⟨[], rfl, rfl⟩, rfl⟩
  have hparse : ended.halted (Grammar.document ended.front) = (parse tokens).mapError .fault := by
    rw [EndedTape.halted, hfront, hfinish, parse]
    cases Grammar.document (beforeEnd tokens) <;> rfl
  rw [htape] at hreading hmoves
  refine ⟨after, ?_, Nat.add_right_cancel (hafter.depth_add.trans (Nat.zero_add _).symm), ?_⟩
  · rw [← hparse]
    exact hreading
  · exact fun move hmove => (hmoves.within_of_mem move hmove).resolve_left nofun

/-- Tokens behind an end of input are not parsed. -/
theorem parse_append_end {last : Token} (hlast : last.kind = .endOfInput)
    (front more other : List Token) :
    parse (front ++ last :: other) = parse (front ++ last :: more) := by
  have hbefore (more : List Token) : beforeEnd (front ++ last :: more) = beforeEnd front := by
    rw [beforeEnd, beforeEnd, List.takeWhile_append, List.takeWhile_cons_of_neg (by simp [hlast]),
      List.append_nil]
    split
    · exact ((List.takeWhile_prefix _).eq_of_length ‹_›).symm
    · rfl
  have hend (more : List Token) : endPosition (front ++ last :: more) =
      endPosition (front ++ [last]) := by
    simp [endPosition, List.find?_append, hlast]
  rw [parse, parse, hbefore, hbefore, hend other, hend more]

/-- Reading some tokens by position always goes forward and never beyond their end. -/
structure ReadsForward (tokens : List Token) : Prop where
  /-- A document is read to its tree or its error. Every token that is looked at is there, none
  that is stepped over is an end of input, the one ahead is the next one, no level below the last
  one is entered, and all levels are left again. -/
  document : ∃ after, Tape.reading tokens = some ((parse tokens).mapError .fault, after) ∧
    after.cursor.depth = 0 ∧ ∀ move ∈ after.moves, move.Within (terminated tokens)
  value : Progresses (terminated tokens) (Tape.value ⟨terminated tokens⟩)
  expression : Progresses (terminated tokens) (Tape.expression ⟨terminated tokens⟩)
  unary : Progresses (terminated tokens) (Tape.unary ⟨terminated tokens⟩)
  primary : Progresses (terminated tokens) (Tape.primary ⟨terminated tokens⟩)
  statement : Progresses (terminated tokens) (Tape.statement ⟨terminated tokens⟩)
  block : Progresses (terminated tokens) (Tape.block ⟨terminated tokens⟩)
  object : Progresses (terminated tokens) (Tape.object ⟨terminated tokens⟩)
  array : Progresses (terminated tokens) (Tape.array ⟨terminated tokens⟩)
  group : Progresses (terminated tokens) (Tape.group ⟨terminated tokens⟩)
  path : Progresses (terminated tokens) (Tape.path ⟨terminated tokens⟩)
  /-- Tokens behind the first end of input change nothing. -/
  beyond : ∀ front last more other, tokens = front ++ last :: more → last.kind = .endOfInput →
    parse (front ++ last :: other) = parse tokens

open EndedTape

/-- Whatever the tokens are, reading them by position never goes beyond their first end of input.
Each rule comes to an end on the level where it started, and further on if it succeeds. -/
theorem readsForward (tokens : List Token) : ReadsForward tokens := by
  obtain ⟨ended, htape, -⟩ := exists_endedTape tokens
  have htokens : ended.tape.tokens = terminated tokens := congrArg Tape.tokens htape
  have hinside := ended.followsInside
  have hrules := ended.followsRules
  constructor
  case document => exact reading_eq_parse tokens
  case beyond =>
    rintro front last more other rfl hlast
    exact parse_append_end hlast front more other
  all_goals rw [← htape, ← htokens]
  case value =>
    exact progresses_of_rule fun levels => value_follows (hinside levels)
  case expression =>
    exact progresses_of_rule fun levels => expression_follows (hinside levels)
  case unary =>
    exact progresses_of_rule fun levels => unary_follows (hinside levels)
  case primary =>
    exact progresses_of_rule fun levels => primary_follows (hinside levels)
  case statement =>
    exact progresses_of_rule fun levels => statement_follows (hinside levels)
  case block => exact ended.progresses_block
  case path => exact ended.progresses_path
  case object =>
    exact progresses_of_sign (Tape.object.eq_1 _) nofun fun levels span rest =>
      ⟨_, (hrules levels).object span rest, length_le_of_rule⟩
  case array =>
    exact progresses_of_sign (Tape.array.eq_1 _) nofun fun levels span rest =>
      ⟨_, (hrules levels).array span rest, length_le_of_rule⟩
  case group =>
    exact progresses_of_sign (Tape.group.eq_1 _) nofun fun levels span rest =>
      ⟨_, (hrules levels).group span rest, length_le_of_rule⟩

end JsonTemplate
