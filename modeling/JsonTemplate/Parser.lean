import JsonTemplate.Parser.Grammar

/-!
# Parsing tokens

A document is one object or array and nothing after it. The tokens are those before the first
end of input; if they have none, the input ends where the last token does. A failure is
reported at the token it was found at.
-/

namespace JsonTemplate

namespace Grammar

/-- The object or array at the root. -/
def root : Rule Node
  | ⟨.symbol .leftBrace, _⟩ :: rest =>
    (·.widen (length_le_succ rest)) <$> (Rules.nested nestingLimit).object rest
  | ⟨.symbol .leftBracket, _⟩ :: rest =>
    (·.widen (length_le_succ rest)) <$> (Rules.nested nestingLimit).array rest
  | found => expected .root found

/-- The root with nothing after it. -/
def document (input : List Token) : Except Failure Node := do
  let root ← root input
  match root.rest with
  | [] => return root.value
  | found => .error ⟨.trailing, found⟩

end Grammar

/-- A fault in a list of tokens: what was found where, in bytes from the start of the source. -/
structure ParseError where
  fault : ParseFault
  found : TokenKind
  position : Nat
deriving DecidableEq, Repr

namespace ParseError

/-- What a message says before the position. -/
def complaint (error : ParseError) : String :=
  match error.fault with
  | .expected what => "Expected " ++ what.text ++ ", got " ++ error.found.describe
  | .unsupported word => "'" ++ word.text ++ "' is not supported"
  | .trailing => "Unexpected " ++ error.found.describe ++ " after the document"
  | .integerTooLarge magnitude =>
    "Integer literal " ++ decimalString magnitude ++ " is out of range"
  | .tooDeep => "Nesting deeper than " ++ decimalString nestingLimit ++ " levels"

/-- The text of a parse error as it is reported. -/
def message (error : ParseError) : String :=
  error.complaint ++ " at position " ++ decimalString error.position

end ParseError

/-- The tokens before the first end of input. -/
def beforeEnd (tokens : List Token) : List Token := tokens.takeWhile (·.kind ≠ .endOfInput)

/-- Where the input ends: at the first end of input, or else after the last token. -/
def endPosition (tokens : List Token) : Nat :=
  match tokens.find? (·.kind = .endOfInput) with
  | some token => token.span.start
  | none => (tokens.getLast?.map (·.span.stop)).getD 0

/-- A failure as an error, where the input ends at the given position. -/
def Failure.toError (failure : Failure) (endPosition : Nat) : ParseError :=
  match failure.rest with
  | [] => ⟨failure.fault, .endOfInput, endPosition⟩
  | token :: _ => ⟨failure.fault, token.kind, token.span.start⟩

/-- The tree that tokens spell. -/
def parse (tokens : List Token) : Except ParseError Node :=
  match Grammar.document (beforeEnd tokens) with
  | .ok root => .ok root
  | .error failure => .error (failure.toError (endPosition tokens))

end JsonTemplate
