import JsonTemplate.Proofs.Parser.FirstFault

/-!
# Reading by position

The grammar once more, for a reader that has all tokens before it, ends of input included. It
keeps an index into the tokens and counts the levels that it has gone down. It steps over a token
by adding one to the index, though never past the last token, and looks at the token ahead in the
same way. Its loops are bounded by nothing, and a reader that does not end gives nothing at all.

All that the reader does with the tokens and with its depth is recorded, so that it can be said of
every point of a reading, and not of its end alone.
-/

namespace JsonTemplate

/-- Where a reader stands: before the token with an index, so many levels down. -/
structure Cursor where
  position : Nat
  depth : Nat
deriving DecidableEq, Repr

namespace Cursor

/-- Before the next one of so many tokens; behind the last one there is none. -/
def next (count : Nat) (cursor : Cursor) : Cursor :=
  if cursor.position + 1 < count then ⟨cursor.position + 1, cursor.depth⟩ else cursor

/-- One level down. -/
def down (cursor : Cursor) : Cursor := ⟨cursor.position, cursor.depth + 1⟩

/-- One level up. -/
def up (cursor : Cursor) : Cursor := ⟨cursor.position, cursor.depth - 1⟩

/-- What a reader does at a cursor. -/
inductive Act where
  /-- It looks at the token with an index. -/
  | look (index : Nat)
  /-- It looks ahead at the token with an index. -/
  | peek (index : Nat)
  | advance
  | descend
  | ascend
deriving DecidableEq, Repr

/-- What a reader has done, and where it stood before and after. -/
structure Move where
  act : Act
  start : Cursor
  stop : Cursor
deriving DecidableEq, Repr

/-- Where a reader stands, and all that it has done, the newest first. -/
structure State where
  cursor : Cursor
  moves : List Move
deriving DecidableEq, Repr

/-- The state after a move. -/
def State.after (state : State) (act : Act) (go : Cursor → Cursor) : State :=
  ⟨go state.cursor, ⟨act, state.cursor, go state.cursor⟩ :: state.moves⟩

/-- Why a reader stops without a result. -/
inductive Halt where
  | fault (error : ParseError)
  /-- A rule that starts with a sign was tried at another token. -/
  | unopened (sign found : TokenKind) (position : Nat)
  /-- There is no token with the index that was looked at. -/
  | outOfRange
deriving DecidableEq, Repr

/-- What a reader does, which keeps its state also when it stops without a result. -/
abbrev Walk (α : Type) := ExceptT Halt (StateT State Option) α

/-- The cursor is moved, and the move is recorded. -/
def move (act : Act) (go : Cursor → Cursor) : Walk Unit := modify (·.after act go)

end Cursor

/-- The tokens that a reader has before it. -/
structure Tape where
  tokens : List Token

namespace Tape

open Cursor

/-- The token with an index, if there is one. -/
def tokenAt (tape : Tape) (index : Nat) : Walk Token :=
  match tape.tokens[index]? with
  | some token => return token
  | none => throw .outOfRange

/-- The token at the cursor. -/
def current (tape : Tape) : Walk Token := do
  let index := (← get).cursor.position
  move (.look index) id
  tape.tokenAt index

/-- The token after the one at the cursor, or the last one. -/
def peek (tape : Tape) : Walk Token := do
  let index := min ((← get).cursor.position + 1) (tape.tokens.length - 1)
  move (.peek index) id
  tape.tokenAt index

/-- Steps over the token at the cursor, unless it is the last one. -/
def advance (tape : Tape) : Walk Unit := move .advance (·.next tape.tokens.length)

/-- The token at the cursor is at fault. -/
def fail {α : Type} (tape : Tape) (fault : ParseFault) : Walk α := do
  let token ← tape.current
  throw (.fault ⟨fault, token.kind, token.span.start⟩)

/-- Steps over a token of one kind; any other one is at fault. -/
def expect (tape : Tape) (kind : TokenKind) (what : Expectation) : Walk Unit := do
  if (← tape.current).kind = kind then tape.advance else tape.fail (.expected what)

/-- Steps over the sign that a rule starts with. -/
def start (tape : Tape) (sign : TokenKind) : Walk Unit := do
  let token ← tape.current
  if token.kind = sign then tape.advance
  else throw (.unopened sign token.kind token.span.start)

/-- Reads one level down, and comes up again whether or not there is a result. -/
@[reducible] def descend {α : Type} (tape : Tape) (rule : Walk α) : Walk α := do
  if nestingLimit ≤ (← get).cursor.depth then tape.fail .tooDeep
  else
    move .descend down
    show StateT State Option (Except Halt α) from do
      let result ← rule.run
      modify (·.after .ascend up)
      return result

/-- Steps over all tokens of one symbol at the cursor. -/
def skip (tape : Tape) (sign : Symbol) : Walk Unit := do
  if (← tape.current).kind = .symbol sign then
    tape.advance
    tape |>.skip sign
partial_fixpoint

/-- The accessors of a path, up to the first token that starts none. -/
def accessors (tape : Tape) : Walk (List Accessor) := do
  match (← tape.current).kind with
  | .symbol .dot =>
    tape.advance
    match Grammar.fieldName? (← tape.current).kind with
    | some field =>
      tape.advance
      return .field field :: (← tape |>.accessors)
    | none => tape.fail (.expected .fieldName)
  | .symbol .leftBracket =>
    tape.advance
    match Grammar.indexAccessor? (← tape.current).kind with
    | some accessor =>
      tape.advance
      tape.expect (.symbol .rightBracket) .closingBracket
      return accessor :: (← tape |>.accessors)
    | none => tape.fail (.expected .index)
  | kind => if Grammar.isStray kind then tape.fail (.expected .accessor) else return []
partial_fixpoint

/-- `this` with its path. -/
def path (tape : Tape) : Walk Node := do
  tape.start (.keyword .this)
  return .this (← tape.accessors)

mutual

/-- An object, from its opening brace on. -/
def object (tape : Tape) : Walk Node := do
  tape.start (.symbol .leftBrace)
  return .object (← tape |>.members)
partial_fixpoint

/-- The members of an object, up to its closing brace. -/
def members (tape : Tape) : Walk (List (String × Node)) := do
  tape.skip .comma
  match (← tape.current).kind with
  | .symbol .rightBrace =>
    tape.advance
    return []
  | .string raw =>
    tape.advance
    tape.expect (.symbol .colon) .colonAfterName
    let value ← tape |>.value
    return (decodeString raw, value) :: (← tape |>.members)
  | _ => tape.fail (.expected .memberOrBrace)
partial_fixpoint

/-- An array, from its opening bracket on. -/
def array (tape : Tape) : Walk Node := do
  tape.start (.symbol .leftBracket)
  return .array (← tape |>.elements)
partial_fixpoint

/-- The elements of an array, up to its closing bracket. -/
def elements (tape : Tape) : Walk (List Node) := do
  tape.skip .comma
  let kind := (← tape.current).kind
  if kind = .symbol .rightBracket then
    tape.advance
    return []
  else if kind = .endOfInput then tape.fail (.expected .closingBracket)
  else
    let first ← tape |>.value
    return first :: (← tape |>.elements)
partial_fixpoint

/-- A member's value or an array's element. -/
def value (tape : Tape) : Walk Node := do
  if (← tape.current).kind = .symbol .arrow then tape.descend (tape |>.block)
  else tape |>.binary 1
partial_fixpoint

/-- A block, from its arrow on. -/
def block (tape : Tape) : Walk Node := do
  tape.start (.symbol .arrow)
  tape.expect (.symbol .leftBrace) .braceAfterArrow
  return .block (← tape |>.statements)
partial_fixpoint

/-- The statements of a block, up to its closing brace. -/
def statements (tape : Tape) : Walk (List Node) := do
  tape.skip .semicolon
  let kind := (← tape.current).kind
  if kind = .symbol .rightBrace then
    tape.advance
    return []
  else if kind = .endOfInput then tape.fail (.expected .blockEnd)
  else
    let first ← tape |>.statement
    let kind := (← tape.current).kind
    if kind = .symbol .semicolon ∨ kind = .symbol .rightBrace then
      return first :: (← tape |>.statements)
    else tape.fail (.expected .semicolon)
partial_fixpoint

/-- A statement: a binding, a return or an expression. -/
def statement (tape : Tape) : Walk Node := do
  match (← tape.current).kind with
  | .keyword .var =>
    tape.advance
    match (← tape.current).kind with
    | .identifier name =>
      tape.advance
      tape.expect (.symbol .assign) .assignAfterName
      return .assign name (← tape |>.binary 1)
    | _ => tape.fail (.expected .nameAfterVar)
  | .keyword .return_ =>
    tape.advance
    let value ← tape |>.binary 1
    if (← tape.current).kind = .symbol .semicolon then return .return_ value
    else tape.fail (.expected .semicolonAfterReturn)
  | .identifier name =>
    if (← tape.peek).kind = .symbol .assign then
      tape.advance
      tape.advance
      return .assign name (← tape |>.binary 1)
    else tape |>.binary 1
  | _ => tape |>.binary 1
partial_fixpoint

/-- Operands joined by operators that bind at least as tightly as given. -/
def binary (tape : Tape) (least : Nat) : Walk Node := do
  let left ← tape |>.unary
  tape |>.chain least left
partial_fixpoint

/-- The operators behind an operand that bind at least as strongly as given, with their operands. -/
def chain (tape : Tape) (least : Nat) (left : Node) : Walk Node := do
  match Grammar.operator? (← tape.current).kind with
  | none => return left
  | some operator =>
    if operator.precedence < least then return left
    else
      tape.advance
      let right ← tape |>.binary (operator.precedence + 1)
      tape |>.chain least (.binary operator left right)
partial_fixpoint

/-- An operand with its minus signs, each of which is one level down. -/
def unary (tape : Tape) : Walk Node := do
  if (← tape.current).kind = .symbol .minus then
    tape.advance
    if (← tape.current).kind = .integer Numeral.greatestInteger then
      tape.advance
      return .integer Int64.minValue
    else return .negate (← tape.descend (tape |>.unary))
  else tape |>.primary
partial_fixpoint

/-- An operand without a minus sign. -/
def primary (tape : Tape) : Walk Node := do
  match (← tape.current).kind with
  | .integer magnitude =>
    match integer? magnitude with
    | some value =>
      tape.advance
      return .integer value
    | none => tape.fail (.integerTooLarge magnitude)
  | .keyword .this => tape.path
  | .symbol .leftBrace => tape.descend (tape |>.object)
  | .symbol .leftBracket => tape.descend (tape |>.array)
  | .symbol .leftParen => tape.descend (tape |>.group)
  | kind =>
    match Grammar.leaf? kind with
    | some node =>
      tape.advance
      return node
    | none =>
      match kind with
      | .keyword word =>
        if word.isControl then tape.fail (.unsupported word)
        else tape.fail (.expected .expression)
      | _ => tape.fail (.expected .expression)
partial_fixpoint

/-- An expression in parentheses, from the opening one on. -/
def group (tape : Tape) : Walk Node := do
  tape.start (.symbol .leftParen)
  let inside ← tape |>.binary 1
  tape.expect (.symbol .rightParen) .closingParen
  return inside
partial_fixpoint

end

/-- An expression of one level. -/
def expression (tape : Tape) : Walk Node := tape.binary 1

/-- The object or array at the root. -/
def root (tape : Tape) : Walk Node := do
  match (← tape.current).kind with
  | .symbol .leftBrace => tape.object
  | .symbol .leftBracket => tape.array
  | _ => tape.fail (.expected .root)

/-- The root with nothing but the end of input after it. -/
def document (tape : Tape) : Walk Node := do
  let root ← tape.root
  if (← tape.current).kind = .endOfInput then return root else tape.fail .trailing

/-- The reading of tokens from the first one on, with an end of input after the last one. -/
def reading (tokens : List Token) : Option (Except Halt Node × State) :=
  document ⟨terminated tokens⟩ ⟨⟨0, 0⟩, []⟩

end Tape

end JsonTemplate
