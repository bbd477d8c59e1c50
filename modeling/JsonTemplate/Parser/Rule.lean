import JsonTemplate.Node

/-!
# Rules of the grammar

A rule reads a value from the front of a list of tokens and gives it with the tokens left,
fewer than there were, or fails at a token. A failure names the tokens from the offending one
on; the end of the input is the empty list. Rules never look behind the tokens they are given.
-/

namespace JsonTemplate

/-- What a failed rule was looking for. -/
inductive Expectation where
  | root
  | colonAfterName
  | memberOrBrace
  | closingBracket
  | braceAfterArrow
  | blockEnd
  | semicolon
  | nameAfterVar
  | assignAfterName
  | semicolonAfterReturn
  | expression
  | closingParen
  | fieldName
  | index
  | accessor
deriving DecidableEq, Repr

namespace Expectation

/-- What was expected, as it is put into an error. -/
def text : Expectation → String
  | root => "'\x7b' or '['"
  | colonAfterName => "':' after member name"
  | memberOrBrace => "member name or '\x7d'"
  | closingBracket => "']'"
  | braceAfterArrow => "'\x7b' after '->'"
  | blockEnd => "'\x7d' closing the block"
  | semicolon => "';'"
  | nameAfterVar => "identifier after 'var'"
  | assignAfterName => "'=' after variable name"
  | semicolonAfterReturn => "';' after return value"
  | expression => "expression"
  | closingParen => "')'"
  | fieldName => "field name after '.'"
  | index => "index inside '[ ]'"
  | accessor => "'.' or '[' after 'this'"

end Expectation

/-- Why tokens are no template. -/
inductive ParseFault where
  | expected (what : Expectation)
  | unsupported (word : Keyword)
  | trailing
  | integerTooLarge (magnitude : Nat)
  | tooDeep
deriving DecidableEq, Repr

/-- A fault, and the tokens from the one it is found at. -/
structure Failure where
  fault : ParseFault
  rest : List Token
deriving DecidableEq, Repr

/-- A value that was read, and the tokens left, fewer than the bound. -/
structure Parsed (α : Type) (bound : Nat) where
  value : α
  rest : List Token
  length_rest_lt : rest.length < bound

namespace Parsed

/-- The same reading under a larger bound. -/
def widen {α : Type} {bound wider : Nat} (parsed : Parsed α bound) (h : bound ≤ wider) :
    Parsed α wider :=
  ⟨parsed.value, parsed.rest, Nat.lt_of_lt_of_le parsed.length_rest_lt h⟩

/-- The same reading under a larger bound, with its value changed. -/
def map {α β : Type} {bound wider : Nat} (f : α → β) (parsed : Parsed α bound)
    (h : bound ≤ wider) : Parsed β wider :=
  ⟨f parsed.value, parsed.rest, Nat.lt_of_lt_of_le parsed.length_rest_lt h⟩

end Parsed

/-- What reading gives under a bound on the tokens left. -/
abbrev Reading (α : Type) (bound : Nat) := Except Failure (Parsed α bound)

/-- A rule takes at least one token when it succeeds. -/
abbrev Rule (α : Type) := (input : List Token) → Reading α input.length

/-- The tokens after the first one are fewer. -/
theorem length_le_succ (rest : List Token) : rest.length ≤ rest.length + 1 := Nat.le_succ _

/-- The failure to find something at the front of the given tokens. -/
def expected {α : Type} (what : Expectation) (rest : List Token) : Except Failure α :=
  .error ⟨.expected what, rest⟩

end JsonTemplate
