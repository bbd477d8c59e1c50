import Mathlib.Logic.Relation
import JsonTemplate.Proofs.Parser.Completeness
import JsonTemplate.Proofs.Parser.Cursor

/-!
# Walks over tokens with an end

Where the tokens have an end of input, a reader that stands at the latest before the first one
knows all that it needs: the tokens between the two and how many levels are left. From there a
walk is described by what it gives and by the tokens that it stops before. All that it does on the
way is in order, and it comes back to the level where it started.
-/

namespace JsonTemplate

/-- The index of the first end of input. -/
def endIndex (tokens : List Token) : Nat := tokens.findIdx (·.kind = .endOfInput)

namespace Cursor

/-- The cursor is not behind the first end of input, and not below the last level. -/
structure Within (tokens : List Token) (cursor : Cursor) : Prop where
  position_le : cursor.position ≤ endIndex tokens
  depth_le : cursor.depth ≤ nestingLimit

/-- What a reader does in order: it looks at tokens that are there, the one ahead being the next
one, steps over one token that is no end of input, and goes down and up by one level. -/
inductive Move.InOrder (tokens : List Token) : Move → Prop
  | look {cursor : Cursor} : cursor.position < tokens.length →
    InOrder tokens ⟨.look cursor.position, cursor, cursor⟩
  | peek {cursor : Cursor} : cursor.position + 1 < tokens.length →
    InOrder tokens ⟨.peek (cursor.position + 1), cursor, cursor⟩
  | advance {cursor : Cursor} {token : Token} : tokens[cursor.position]? = some token →
    token.kind ≠ .endOfInput →
    InOrder tokens ⟨.advance, cursor, ⟨cursor.position + 1, cursor.depth⟩⟩
  | descend {cursor : Cursor} :
    InOrder tokens ⟨.descend, cursor, ⟨cursor.position, cursor.depth + 1⟩⟩
  | ascend {cursor : Cursor} :
    InOrder tokens ⟨.ascend, ⟨cursor.position, cursor.depth + 1⟩, cursor⟩

/-- A move in order that stays within the tokens and the levels. -/
structure Move.Within (tokens : List Token) (move : Move) : Prop where
  start : move.start.Within tokens
  stop : move.stop.Within tokens
  inOrder : move.InOrder tokens

/-- One move leads from a state to another, in order and within the tokens and the levels. -/
inductive State.Steps (tokens : List Token) : State → State → Prop
  | move {state : State} {act : Act} {go : Cursor → Cursor} :
    Move.Within tokens ⟨act, state.cursor, go state.cursor⟩ →
      Steps tokens state (state.after act go)

/-- Moves that stay within the tokens and the levels lead from one state to another. -/
abbrev State.Continues (tokens : List Token) : State → State → Prop :=
  Relation.ReflTransGen (State.Steps tokens)

namespace State.Continues

variable {tokens : List Token} {state after : State}

/-- A move that is in order goes on with the reading. -/
theorem move {act : Act} {go : Cursor → Cursor} (hstart : state.cursor.Within tokens)
    (hstop : (go state.cursor).Within tokens)
    (h : Move.InOrder tokens ⟨act, state.cursor, go state.cursor⟩) :
    Continues tokens state (state.after act go) :=
  .single (.move ⟨hstart, hstop, h⟩)

/-- All that a reader does on the way stays within the tokens and the levels. -/
theorem within_of_mem (h : Continues tokens state after) :
    ∀ move ∈ after.moves, move ∈ state.moves ∨ move.Within tokens := by
  induction h with
  | refl => exact fun _ => Or.inl
  | tail _ hstep ih =>
    cases hstep with
    | move hmove =>
      intro move hmem
      rcases List.mem_cons.mp hmem with rfl | hmem
      · exact Or.inr hmove
      · exact ih move hmem

end State.Continues

namespace Walk

variable {α β : Type} {walk : Walk α} {next : α → Walk β} {state after : State}

/-- After a result, what comes next goes on from the state that is left. -/
theorem bind_of_ok {value : α} (h : walk state = some (.ok value, after)) :
    (walk >>= next) state = next value after := by
  change Option.bind (walk state) _ = _
  rw [h]
  rfl

/-- After a halt, nothing comes next. -/
theorem bind_of_error {halt : Halt} (h : walk state = some (.error halt, after)) :
    (walk >>= next) state = some (.error halt, after) := by
  change Option.bind (walk state) _ = _
  rw [h]
  rfl

end Walk

end Cursor

open Cursor

/-- What a reader gives at the outcome of a rule, where the input ends at the given position. -/
def ParseOutcome.halted {α : Type} (outcome : ParseOutcome α) (endPosition : Nat) :
    Except Halt α :=
  outcome.result.mapError fun fault => .fault (Failure.toError ⟨fault, outcome.rest⟩ endPosition)

/-- Tokens with an end of input, divided at the first one. -/
structure EndedTape where
  front : List Token
  finish : Span
  beyond : List Token
  front_ne : ∀ token ∈ front, token.kind ≠ .endOfInput

namespace EndedTape

/-- The first end of input. -/
def last (ended : EndedTape) : Token := ⟨.endOfInput, ended.finish⟩

/-- All tokens, those behind the first end of input as well. -/
def tape (ended : EndedTape) : Tape := ⟨ended.front ++ ended.last :: ended.beyond⟩

/-- The first end of input comes right behind the tokens before it. -/
theorem endIndex_tape (ended : EndedTape) : endIndex ended.tape.tokens = ended.front.length := by
  have hfront : List.findIdx (fun token : Token => decide (token.kind = .endOfInput)) ended.front =
      ended.front.length :=
    List.findIdx_eq_length.mpr fun token htoken => decide_eq_false (ended.front_ne token htoken)
  rw [endIndex, tape, List.findIdx_append, hfront, if_neg (Nat.lt_irrefl _), List.findIdx_cons]
  exact Nat.zero_add _

variable (ended : EndedTape)

/-- The cursor stands before the given tokens, so many levels above the last one. -/
structure Before (levels : Nat) (input : List Token) (cursor : Cursor) : Prop where
  exists_passed : ∃ passed, ended.front = passed ++ input ∧ passed.length = cursor.position
  depth_add : cursor.depth + levels = nestingLimit

/-- Before some tokens, a walk gives a result and stops before others, on the level where it
started. -/
def Reaches {α : Type} (levels : Nat) (input : List Token) (walk : Walk α)
    (result : Except Halt α) (rest : List Token) : Prop :=
  ∀ state, ended.Before levels input state.cursor → ∃ after,
    walk state = some (result, after) ∧ ended.Before levels rest after.cursor ∧
      state.Continues ended.tape.tokens after

/-- Before some tokens, a walk does what a rule does with them. -/
def Follows {α : Type} (levels : Nat) (input : List Token) (walk : Walk α)
    (outcome : ParseOutcome α) : Prop :=
  ended.Reaches levels input walk (outcome.halted ended.finish.start) outcome.rest

variable {ended} {α β : Type} {levels : Nat} {input rest : List Token} {token : Token}
  {cursor : Cursor}

/-- The first of some tokens, or the end of input. -/
def headOf (ended : EndedTape) (input : List Token) : Token := input.headD ended.last

/-- The head of tokens that there are is the first of them. -/
@[simp] theorem headOf_cons : ended.headOf (token :: rest) = token := rfl

/-- The head is not of a kind that the tokens do not start with. -/
theorem headOf_kind_ne {kind : TokenKind} (h : NotBefore (kind = ·) (kinds input))
    (hkind : kind ≠ .endOfInput) : (ended.headOf input).kind ≠ kind := by
  cases input with
  | nil => exact hkind.symm
  | cons token rest => exact Ne.symm (notBefore_cons.mp h)

namespace Before

/-- The token at the cursor is the head of what is before it. -/
theorem getElem? (h : ended.Before levels input cursor) :
    ended.tape.tokens[cursor.position]? = some (ended.headOf input) := by
  obtain ⟨⟨passed, hfront, hposition⟩, -⟩ := h
  rw [tape, hfront, ← hposition, List.append_assoc, List.getElem?_append_right (Nat.le_refl _),
    Nat.sub_self]
  cases input <;> rfl

/-- The cursor stands at one of the tokens. -/
theorem within (h : ended.Before levels input cursor) : cursor.Within ended.tape.tokens := by
  obtain ⟨⟨passed, hfront, hposition⟩, hdepth⟩ := h
  refine ⟨?_, Nat.le.intro hdepth⟩
  rw [endIndex_tape, hfront, List.length_append, hposition]
  exact Nat.le_add_right _ _

/-- The tokens that are passed and those before the cursor are all up to the end of input. -/
theorem position_add_length (h : ended.Before levels input cursor) :
    cursor.position + input.length = ended.front.length := by
  obtain ⟨⟨passed, hfront, hposition⟩, -⟩ := h
  rw [hfront, List.length_append, hposition]

/-- The position of the cursor is below the number of tokens. -/
theorem position_lt (h : ended.Before levels input cursor) :
    cursor.position < ended.tape.tokens.length :=
  (List.getElem?_eq_some_iff.mp h.getElem?).1

/-- Behind the first of the tokens before the cursor, it stands before the others. -/
theorem next (h : ended.Before levels (token :: rest) cursor) :
    ended.Before levels rest ⟨cursor.position + 1, cursor.depth⟩ := by
  obtain ⟨⟨passed, hfront, hposition⟩, hdepth⟩ := h
  refine ⟨⟨passed ++ [token], ?_, ?_⟩, hdepth⟩
  · rw [hfront, List.append_assoc, List.singleton_append]
  · rw [List.length_append, hposition, List.length_singleton]

/-- The cursor is not at the last token if there is one before the end of input. -/
theorem next_eq (h : ended.Before levels (token :: rest) cursor) :
    cursor.next ended.tape.tokens.length = ⟨cursor.position + 1, cursor.depth⟩ :=
  if_pos h.next.position_lt

/-- None of the tokens before the cursor is an end of input. -/
theorem kind_ne (h : ended.Before levels (token :: rest) cursor) : token.kind ≠ .endOfInput := by
  obtain ⟨⟨passed, hfront, -⟩, -⟩ := h
  refine ended.front_ne token ?_
  rw [hfront]
  exact List.mem_append_right _ List.mem_cons_self

/-- One level down, one level less is left. -/
theorem down (h : ended.Before (levels + 1) input cursor) :
    ended.Before levels input cursor.down := by
  refine ⟨h.exists_passed, ?_⟩
  rw [← h.depth_add, Nat.add_comm levels, ← Nat.add_assoc]
  rfl

/-- One level up, one level more is left. -/
theorem up (h : ended.Before levels input cursor) (hdepth : 0 < cursor.depth) :
    ended.Before (levels + 1) input cursor.up := by
  refine ⟨h.exists_passed, ?_⟩
  have hadd := h.depth_add
  change cursor.depth - 1 + (levels + 1) = nestingLimit
  omega

/-- A cursor within the tokens stands before some of them. -/
theorem of_within (h : cursor.Within ended.tape.tokens) :
    ended.Before (nestingLimit - cursor.depth) (ended.front.drop cursor.position) cursor := by
  refine ⟨⟨ended.front.take cursor.position, (List.take_append_drop _ _).symm, ?_⟩,
    Nat.add_sub_cancel' h.depth_le⟩
  exact List.length_take_of_le (ended.endIndex_tape ▸ h.position_le)

end Before

/-- A walk that only gives a value stays where it is. -/
theorem Reaches.pure (value : α) : ended.Reaches levels input (Pure.pure value) (.ok value) input :=
  fun state hstate => ⟨state, rfl, hstate, .refl⟩

/-- A walk that only halts stays where it is. -/
theorem Reaches.throw (halt : Halt) :
    ended.Reaches (α := α) levels input (throw halt) (.error halt) input :=
  fun state hstate => ⟨state, rfl, hstate, .refl⟩

/-- A walk goes on where another one has stopped with a value. -/
theorem Reaches.bind_ok {walk : Walk α} {next : α → Walk β} {value : α} {result : Except Halt β}
    {last : List Token} (h : ended.Reaches levels input walk (.ok value) rest)
    (hnext : ended.Reaches levels rest (next value) result last) :
    ended.Reaches levels input (walk >>= next) result last := by
  intro state hstate
  obtain ⟨middle, hwalk, hmiddle, hfirst⟩ := h state hstate
  obtain ⟨after, hgo, hafter, hsecond⟩ := hnext middle hmiddle
  exact ⟨after, (Walk.bind_of_ok hwalk).trans hgo, hafter, hfirst.trans hsecond⟩

/-- A walk that halts keeps all that follows it from being done. -/
theorem Reaches.bind_error {walk : Walk α} {next : α → Walk β} {halt : Halt}
    (h : ended.Reaches levels input walk (.error halt) rest) :
    ended.Reaches levels input (walk >>= next) (.error halt) rest := by
  intro state hstate
  obtain ⟨after, hwalk, hafter, hmoves⟩ := h state hstate
  exact ⟨after, Walk.bind_of_error hwalk, hafter, hmoves⟩

/-- The token at the cursor is the first one of those before it, or the end of input. -/
theorem reaches_current :
    ended.Reaches levels input ended.tape.current (.ok (ended.headOf input)) input := by
  intro state hstate
  refine ⟨state.after (.look state.cursor.position) id, ?_, hstate,
    .move hstate.within hstate.within (.look hstate.position_lt)⟩
  change ended.tape.tokenAt state.cursor.position _ = _
  rw [Tape.tokenAt, hstate.getElem?]
  rfl

/-- To look ahead is to look at the head of the tokens behind the first. -/
theorem reaches_peek : ended.Reaches levels (token :: rest) ended.tape.peek
    (.ok (ended.headOf rest)) (token :: rest) := by
  intro state hstate
  have hnext : state.cursor.position + 1 < ended.tape.tokens.length := hstate.next.position_lt
  have hindex : min (state.cursor.position + 1) (ended.tape.tokens.length - 1) =
      state.cursor.position + 1 := by omega
  refine ⟨state.after (.peek (state.cursor.position + 1)) id, ?_, hstate,
    .move hstate.within hstate.within (.peek hnext)⟩
  change ended.tape.tokenAt (min _ _) (state.after (.peek (min _ _)) id) = _
  rw [hindex, Tape.tokenAt, hstate.next.getElem?]
  rfl

/-- To advance is to leave the first token behind. -/
theorem reaches_advance :
    ended.Reaches levels (token :: rest) ended.tape.advance (.ok ()) rest := by
  intro state hstate
  have hgo := hstate.next_eq
  have hnext := hstate.next
  rw [← hgo] at hnext
  refine ⟨state.after .advance (·.next ended.tape.tokens.length), rfl, hnext,
    .move hstate.within hnext.within ?_⟩
  rw [hgo]
  exact .advance hstate.getElem? hstate.kind_ne

/-- What is read one level down is read with one level less left. -/
theorem Reaches.descend {walk : Walk α} {result : Except Halt α}
    (h : ended.Reaches levels input walk result rest) :
    ended.Reaches (levels + 1) input (ended.tape.descend walk) result rest := by
  intro state hstate
  have hlt : ¬nestingLimit ≤ state.cursor.depth := by
    have hadd := hstate.depth_add
    omega
  obtain ⟨middle, hwalk, hmiddle, hmoves⟩ := h (state.after .descend down) hstate.down
  have hdepth : middle.cursor.depth = state.cursor.depth + 1 := by
    have hadd := hstate.down.depth_add
    rw [← hmiddle.depth_add] at hadd
    exact (Nat.add_right_cancel hadd).symm
  have hup := hmiddle.up (hdepth ▸ Nat.succ_pos _)
  have hin : Move.InOrder ended.tape.tokens ⟨.ascend, middle.cursor, middle.cursor.up⟩ := by
    obtain ⟨⟨position, depth⟩, moves⟩ := middle
    obtain rfl : depth = _ := hdepth
    exact @Move.InOrder.ascend _ ⟨position, state.cursor.depth⟩
  refine ⟨middle.after .ascend up, ?_, hup, ?_⟩
  · change (if nestingLimit ≤ state.cursor.depth then _ else _ : Walk α) state = _
    rw [if_neg hlt]
    change Option.bind (walk (state.after .descend down)) _ = _
    rw [hwalk]
    rfl
  · exact (State.Continues.move hstate.within hstate.down.within .descend).trans
      (hmoves.trans (State.Continues.move hmiddle.within hup.within hin))

/-- A walk that only gives a value does what a rule does that takes no token. -/
theorem Follows.pure (value : α) :
    ended.Follows levels input (Pure.pure value) (.read value input) :=
  Reaches.pure value

/-- The token at the cursor is at fault. -/
theorem Follows.fail (fault : ParseFault) :
    ended.Follows (α := α) levels input (ended.tape.fail fault) (.fail fault input) := by
  cases input <;> exact reaches_current.bind_ok (Reaches.throw _)

/-- The tokens before a cursor have no end of input among them. -/
theorem Follows.of_kind_ne {walk : Walk α} {outcome : ParseOutcome α}
    (h : token.kind ≠ .endOfInput → ended.Follows levels (token :: rest) walk outcome) :
    ended.Follows levels (token :: rest) walk outcome :=
  fun state hstate => h hstate.kind_ne state hstate

/-- A walk goes on after a value as a rule does. -/
theorem Follows.andThen {walk : Walk α} {next : α → Walk β} {outcome : ParseOutcome α}
    {after : α → List Token → ParseOutcome β} (h : ended.Follows levels input walk outcome)
    (hnext : ∀ value rest, outcome = .read value rest →
      ended.Follows levels rest (next value) (after value rest)) :
    ended.Follows levels input (walk >>= next) (outcome.andThen after) := by
  obtain ⟨fault | value, rest⟩ := outcome
  · exact Reaches.bind_error h
  · exact Reaches.bind_ok h (hnext value rest rfl)

/-- A walk whose value is changed does what the rule does whose value is changed. -/
theorem Follows.map {walk : Walk α} {f : α → β} {outcome : ParseOutcome α}
    (h : ended.Follows levels input walk outcome) :
    ended.Follows levels input (walk >>= fun value => Pure.pure (f value)) (outcome.map f) :=
  h.andThen fun value _ _ => .pure (f value)

/-- A walk looks at the first token. -/
theorem Follows.current {next : Token → Walk α} {outcome : ParseOutcome α}
    (h : ended.Follows levels input (next (ended.headOf input)) outcome) :
    ended.Follows levels input (ended.tape.current >>= next) outcome :=
  reaches_current.bind_ok h

/-- A walk that looks ahead does what the rule does with the token that it finds. -/
theorem Follows.peek {next : Token → Walk α} {outcome : ParseOutcome α}
    (h : ended.Follows levels (token :: rest) (next (ended.headOf rest)) outcome) :
    ended.Follows levels (token :: rest) (ended.tape.peek >>= next) outcome :=
  reaches_peek.bind_ok h

/-- A walk steps over the first token. -/
theorem Follows.advance {next : Unit → Walk α} {outcome : ParseOutcome α}
    (h : ended.Follows levels rest (next ()) outcome) :
    ended.Follows levels (token :: rest) (ended.tape.advance >>= next) outcome :=
  reaches_advance.bind_ok h

/-- A sign is there where it is expected. -/
theorem Follows.expect {sign : Symbol} {what : Expectation} {span : Span}
    {next : Unit → Walk α} {outcome : ParseOutcome α}
    (h : ended.Follows levels rest (next ()) outcome) :
    ended.Follows levels (⟨.symbol sign, span⟩ :: rest)
      (ended.tape.expect (.symbol sign) what >>= next) outcome := by
  refine Reaches.bind_ok (reaches_current.bind_ok ?_) h
  rw [headOf_cons, if_pos rfl]
  exact reaches_advance

/-- Another token than the sign that is expected is at fault. -/
theorem Follows.unexpected {sign : Symbol} {what : Expectation} {next : Unit → Walk α}
    (h : NotBefore (.symbol sign = ·) (kinds input)) :
    ended.Follows levels input (ended.tape.expect (.symbol sign) what >>= next)
      (.fail (.expected what) input) := by
  refine Reaches.bind_error (reaches_current.bind_ok ?_)
  rw [if_neg (headOf_kind_ne h (by simp))]
  exact Follows.fail (.expected what)

/-- A rule starts at its sign. -/
theorem Follows.start {sign : TokenKind} {span : Span} {next : Unit → Walk α}
    {outcome : ParseOutcome α} (h : ended.Follows levels rest (next ()) outcome) :
    ended.Follows levels (⟨sign, span⟩ :: rest) (ended.tape.start sign >>= next) outcome := by
  refine Reaches.bind_ok (reaches_current.bind_ok ?_) h
  rw [headOf_cons, if_pos rfl]
  exact reaches_advance

/-- A rule stops at once before another token than its sign. -/
theorem Reaches.unopened {sign : TokenKind} {next : Unit → Walk α}
    (h : (ended.headOf input).kind ≠ sign) :
    ended.Reaches levels input (ended.tape.start sign >>= next)
      (.error (.unopened sign (ended.headOf input).kind (ended.headOf input).span.start))
      input := by
  refine Reaches.bind_error (reaches_current.bind_ok ?_)
  rw [if_neg h]
  exact .throw _

/-- The tokens of one symbol are stepped over. -/
theorem reaches_skip (sign : Symbol) :
    ended.Reaches levels input (ended.tape.skip sign) (.ok ()) (Grammar.skip sign input) := by
  induction input with
  | nil =>
    rw [Tape.skip]
    exact reaches_current.bind_ok (Reaches.pure ())
  | cons token rest ih =>
    rw [Tape.skip]
    refine reaches_current.bind_ok ?_
    rw [headOf_cons]
    by_cases hkind : token.kind = .symbol sign
    · have hskip : Grammar.skip sign (token :: rest) = Grammar.skip sign rest :=
        List.dropWhile_cons_of_pos (by simpa using hkind)
      rw [if_pos hkind, hskip]
      exact reaches_advance.bind_ok ih
    · rw [if_neg hkind, Grammar.skip_cons_of_ne hkind]
      exact Reaches.pure ()

/-- A walk steps over the separators that a rule ignores. -/
theorem Follows.skip {sign : Symbol} {reader : Reader α} {next : Unit → Walk α}
    (hsign : ∀ span other, reader (⟨.symbol sign, span⟩ :: other) = reader other)
    (h : ended.Follows levels (Grammar.skip sign input) (next ())
      (reader (Grammar.skip sign input))) :
    ended.Follows levels input (ended.tape.skip sign >>= next) (reader input) := by
  have hreader : reader (Grammar.skip sign input) = reader input := by
    clear h
    induction input with
    | nil => rfl
    | cons token rest ih =>
      by_cases hkind : token.kind = .symbol sign
      · obtain ⟨kind, span⟩ := token
        obtain rfl : kind = _ := hkind
        rw [Grammar.skip_cons_self, ih, hsign]
      · rw [Grammar.skip_cons_of_ne hkind]
  rw [← hreader]
  exact (reaches_skip sign).bind_ok h

/-- A walk goes one level down, or refuses to where there is no level left. -/
theorem Follows.descend {bound : Nat} {walk : Walk Node} {rule : Rules → Reading Node bound}
    (h : ∀ below, levels = below + 1 →
      ended.Follows below input walk (outcomeOf (rule (Rules.nested below)))) :
    ended.Follows levels input (ended.tape.descend walk)
      (outcomeOf (Grammar.descend (Rules.inside levels) input rule)) := by
  cases levels with
  | zero =>
    intro state hstate
    have hle : nestingLimit ≤ state.cursor.depth := Nat.le_of_eq hstate.depth_add.symm
    change ∃ after, (if nestingLimit ≤ state.cursor.depth then _ else _ : Walk Node) state = _ ∧ _
    rw [if_pos hle]
    exact Follows.fail .tooDeep state hstate
  | succ below => exact (h below rfl).descend

end EndedTape

end JsonTemplate
