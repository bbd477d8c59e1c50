import JsonTemplate.Parser.Rule

/-!
# The grammar of templates

The rules of one nesting level are built from the rules of the next: a literal, a block, a
group and the operand of a minus sign go one level down, and at the last level they are
refused. Within a level, lists of members, elements and statements and chains of operators are
loops over the tokens.

Members and elements may be separated by any number of commas, none included, and statements
by semicolons. Operators are read by climbing precedences; those of one precedence associate
to the left.
-/

namespace JsonTemplate

/-- How many levels may be nested inside the root. -/
def nestingLimit : Nat := 128

/-- The rules of a level that are used from the level around it. Objects, arrays, blocks and
groups are read from after their opening sign. -/
structure Rules where
  unary : Rule Node
  object : Rule Node
  array : Rule Node
  block : Rule Node
  group : Rule Node

namespace Grammar

/-- The tokens after those of one symbol at the front. -/
def skip (sign : Symbol) (tokens : List Token) : List Token :=
  tokens.dropWhile (·.kind = .symbol sign)

/-- Skipping a sign leaves no more tokens than there were. -/
theorem length_skip_le (sign : Symbol) (tokens : List Token) :
    (skip sign tokens).length ≤ tokens.length :=
  (List.dropWhile_sublist _).length_le

/-- Reads with the rules of the level inside, or refuses at the given token when there is none. -/
def descend {bound : Nat} (inner : Option Rules) (input : List Token)
    (rule : Rules → Reading Node bound) : Reading Node bound :=
  match inner with
  | none => .error ⟨.tooDeep, input⟩
  | some rules => rule rules

/-- The operator that a token is, if it is one. -/
def operator? : TokenKind → Option Operator
  | .symbol .plus => some .add
  | .symbol .minus => some .sub
  | .symbol .star => some .mul
  | .symbol .slash => some .div
  | _ => none

/-- The name that a token is as a field: an identifier or any keyword. -/
def fieldName? : TokenKind → Option String
  | .identifier name => some name
  | .keyword word => some word.text
  | _ => none

/-- The accessor that a token is between brackets: an index or a field's name as a string. -/
def indexAccessor? : TokenKind → Option Accessor
  | .integer position => some (.index position)
  | .string raw => some (.field (decodeString raw))
  | _ => none

/-- Whether a token can not stand directly after `this` or after a path. -/
def isStray : TokenKind → Bool
  | .identifier _ | .integer _ | .float _ | .keyword .this => true
  | _ => false

/-- The accessors at the front of the tokens after `this`. -/
def accessors (input : List Token) : Reading (List Accessor) (input.length + 1) :=
  match input with
  | ⟨.symbol .dot, _⟩ :: [] => expected .fieldName []
  | ⟨.symbol .dot, _⟩ :: name :: rest =>
    match fieldName? name.kind with
    | none => expected .fieldName (name :: rest)
    | some field => do
      let more ← accessors rest
      return more.map (.field field :: ·) (Nat.succ_le_succ (Nat.le_add_right _ 2))
  | ⟨.symbol .leftBracket, _⟩ :: [] => expected .index []
  | ⟨.symbol .leftBracket, _⟩ :: index :: rest =>
    match indexAccessor? index.kind with
    | none => expected .index (index :: rest)
    | some accessor =>
      match rest with
      | ⟨.symbol .rightBracket, _⟩ :: rest => do
        let more ← accessors rest
        return more.map (accessor :: ·) (Nat.succ_le_succ (Nat.le_add_right _ 3))
      | found => expected .closingBracket found
  | token :: rest =>
    if isStray token.kind then expected .accessor (token :: rest)
    else .ok ⟨[], token :: rest, Nat.lt_succ_self _⟩
  | [] => .ok ⟨[], [], Nat.lt_succ_self _⟩
termination_by input.length

/-- The expression that a token is by itself, if it is one. -/
def leaf? : TokenKind → Option Node
  | .float value => some (.float value)
  | .string raw => some (.string (decodeString raw))
  | .keyword .true_ => some (.boolean true)
  | .keyword .false_ => some (.boolean false)
  | .keyword .null => some .null
  | .identifier name => some (.lookup name)
  | _ => none

/-- An operand without a sign. -/
def primary (inner : Option Rules) : Rule Node
  | [] => expected .expression []
  | token :: rest =>
    match token.kind with
    | .integer magnitude =>
      match integer? magnitude with
      | some value => .ok ⟨.integer value, rest, Nat.lt_succ_self _⟩
      | none => .error ⟨.integerTooLarge magnitude, token :: rest⟩
    | .keyword .this => do
      let path ← accessors rest
      return path.map .this (Nat.le_refl _)
    | .symbol .leftBrace =>
      descend inner (token :: rest) fun rules =>
        (·.widen (length_le_succ rest)) <$> rules.object rest
    | .symbol .leftBracket =>
      descend inner (token :: rest) fun rules =>
        (·.widen (length_le_succ rest)) <$> rules.array rest
    | .symbol .leftParen =>
      descend inner (token :: rest) fun rules =>
        (·.widen (length_le_succ rest)) <$> rules.group rest
    | kind =>
      match leaf? kind with
      | some node => .ok ⟨node, rest, Nat.lt_succ_self _⟩
      | none =>
        match kind with
        | .keyword word =>
          if word.isControl then .error ⟨.unsupported word, token :: rest⟩
          else expected .expression (token :: rest)
        | _ => expected .expression (token :: rest)

/-- The operand of a minus sign, one level down. -/
def negated (inner : Option Rules) (rest : List Token) : Reading Node (rest.length + 1) :=
  descend inner rest fun rules => (·.map .negate (length_le_succ rest)) <$> rules.unary rest

/-- An operand with any number of minus signs. A minus sign directly before the magnitude of
the least integer is part of that integer. -/
def unary (inner : Option Rules) : Rule Node
  | ⟨.symbol .minus, _⟩ :: rest =>
    match rest with
    | ⟨.integer magnitude, span⟩ :: after =>
      if magnitude = Numeral.greatestInteger then
        .ok ⟨.integer Int64.minValue, after, by simp only [List.length_cons]; omega⟩
      else negated inner (⟨.integer magnitude, span⟩ :: after)
    | operand => negated inner operand
  | input => primary inner input

/-- The chain of operators after a left operand, as far as they bind at least as tightly as
given. -/
def chain (operand : Rule Node) (least : Nat) (left : Node) (input : List Token) :
    Reading Node (input.length + 1) :=
  match input with
  | [] => .ok ⟨left, [], Nat.lt_succ_self _⟩
  | token :: rest =>
    match operator? token.kind with
    | none => .ok ⟨left, token :: rest, Nat.lt_succ_self _⟩
    | some operator =>
      if operator.precedence < least then .ok ⟨left, token :: rest, Nat.lt_succ_self _⟩
      else do
        let first ← operand rest
        have := first.length_rest_lt
        let right ← chain operand (operator.precedence + 1) first.value first.rest
        have := right.length_rest_lt
        let all ← chain operand least (.binary operator left right.value) right.rest
        return all.widen (by simp only [List.length_cons]; omega)
termination_by input.length

/-- Operands joined by operators that bind at least as tightly as given. -/
def binary (operand : Rule Node) (least : Nat) : Rule Node := fun input => do
  let first ← operand input
  let all ← chain operand least first.value first.rest
  return all.widen first.length_rest_lt

/-- A member's value or an array's element: a callable block or an expression. -/
def value (inner : Option Rules) (expression : Rule Node) : Rule Node
  | token :: rest =>
    if token.kind = .symbol .arrow then
      descend inner (token :: rest) fun rules =>
        match rest with
        | ⟨.symbol .leftBrace, _⟩ :: body =>
          (·.widen (by simp only [List.length_cons]; omega)) <$> rules.block body
        | found => expected .braceAfterArrow found
    else expression (token :: rest)
  | [] => expression []

/-- The members of an object up to its closing brace. -/
def members (value : Rule Node) (input : List Token) :
    Reading (List (String × Node)) input.length :=
  have hskip := length_skip_le .comma input
  match h : skip .comma input with
  | ⟨.symbol .rightBrace, _⟩ :: rest =>
    .ok ⟨[], rest, by simp only [h, List.length_cons] at hskip; omega⟩
  | ⟨.string raw, _⟩ :: ⟨.symbol .colon, _⟩ :: rest => do
    let first ← value rest
    have := first.length_rest_lt
    have : rest.length < input.length := by simp only [h, List.length_cons] at hskip; omega
    let more ← members value first.rest
    return more.map ((decodeString raw, first.value) :: ·) (by omega)
  | ⟨.string _, _⟩ :: found => expected .colonAfterName found
  | found => expected .memberOrBrace found
termination_by input.length

/-- The elements of an array up to its closing bracket. -/
def elements (value : Rule Node) (input : List Token) : Reading (List Node) input.length :=
  have hskip := length_skip_le .comma input
  match h : skip .comma input with
  | [] => expected .closingBracket []
  | token :: rest =>
    if token.kind = .symbol .rightBracket then
      .ok ⟨[], rest, by simp only [h, List.length_cons] at hskip; omega⟩
    else do
      let first ← value (token :: rest)
      have := first.length_rest_lt
      have : (token :: rest).length ≤ input.length := by simpa only [h] using hskip
      let more ← elements value first.rest
      return more.map (first.value :: ·) (by omega)
termination_by input.length

/-- A statement: a binding, a return, or an expression. A return is followed by a semicolon. -/
def statement (expression : Rule Node) : Rule Node
  | ⟨.keyword .var, _⟩ :: rest =>
    match rest with
    | ⟨.identifier name, _⟩ :: ⟨.symbol .assign, _⟩ :: rest =>
      (·.map (.assign name) (by simp only [List.length_cons]; omega)) <$> expression rest
    | ⟨.identifier _, _⟩ :: found => expected .assignAfterName found
    | found => expected .nameAfterVar found
  | ⟨.keyword .return_, _⟩ :: rest => do
    let value ← expression rest
    match value.rest with
    | ⟨.symbol .semicolon, _⟩ :: _ => return value.map .return_ (Nat.le_succ _)
    | found => expected .semicolonAfterReturn found
  | ⟨.identifier name, _⟩ :: ⟨.symbol .assign, _⟩ :: rest =>
    (·.map (.assign name) (by simp only [List.length_cons]; omega)) <$> expression rest
  | input => expression input

/-- Whether a statement can end before the given tokens. -/
def endsStatement : List Token → Bool
  | ⟨.symbol .semicolon, _⟩ :: _ | ⟨.symbol .rightBrace, _⟩ :: _ => true
  | _ => false

/-- The statements of a block up to its closing brace. -/
def statements (expression : Rule Node) (input : List Token) :
    Reading (List Node) input.length :=
  have hskip := length_skip_le .semicolon input
  match h : skip .semicolon input with
  | [] => expected .blockEnd []
  | token :: rest =>
    if token.kind = .symbol .rightBrace then
      .ok ⟨[], rest, by simp only [h, List.length_cons] at hskip; omega⟩
    else do
      let first ← statement expression (token :: rest)
      have := first.length_rest_lt
      have : (token :: rest).length ≤ input.length := by simpa only [h] using hskip
      if endsStatement first.rest then
        let more ← statements expression first.rest
        return more.map (first.value :: ·) (by omega)
      else expected .semicolon first.rest
termination_by input.length

/-- An expression up to its closing parenthesis. -/
def group (expression : Rule Node) : Rule Node := fun input => do
  let inside ← expression input
  have := inside.length_rest_lt
  match h : inside.rest with
  | ⟨.symbol .rightParen, _⟩ :: rest =>
    return ⟨inside.value, rest, by simp only [h, List.length_cons] at this; omega⟩
  | found => expected .closingParen found

end Grammar

namespace Rules

/-- The rules of a level, from those of the level inside it. -/
def level (inner : Option Rules) : Rules :=
  let unary := Grammar.unary inner
  let expression := Grammar.binary unary 1
  let value := Grammar.value inner expression
  { unary
    object := fun input => (·.map .object (Nat.le_refl _)) <$> Grammar.members value input
    array := fun input => (·.map .array (Nat.le_refl _)) <$> Grammar.elements value input
    block := fun input =>
      (·.map .block (Nat.le_refl _)) <$> Grammar.statements expression input
    group := Grammar.group expression }

/-- The rules of a level inside which the given number of levels may be nested. -/
def nested : Nat → Rules
  | 0 => level none
  | more + 1 => level (some (nested more))

end Rules

end JsonTemplate
