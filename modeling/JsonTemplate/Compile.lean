import JsonTemplate.Document

/-!
# Compiling a template

A source is scanned, parsed, built and printed; the first stage that fails gives the error.
Errors before the building carry a byte offset into the source.
-/

namespace JsonTemplate

/-- Why a source has no JSON text. -/
inductive CompileError where
  | lex (error : LexError)
  | parse (error : ParseError)
  | eval (error : EvalError)
deriving DecidableEq, Repr

namespace CompileError

/-- The text of an error as it is reported. -/
def message : CompileError → String
  | lex error => error.message
  | parse error => error.message
  | eval error => error.message

/-- The byte offset of an error in the source. -/
def position? : CompileError → Option Nat
  | lex error => some error.position
  | parse error => some error.position
  | eval _ => none

end CompileError

/-- The kinds of errors, for those who do not read messages. -/
inductive ErrorKind where
  | lex | parse | unsupportedConstruct | unboundVariable | unresolvedPath | type
  | divisionByZero | arithmetic
deriving DecidableEq, Repr

namespace ErrorKind

/-- The name of a kind of error. -/
def text : ErrorKind → String
  | lex => "LexError"
  | parse => "ParseError"
  | unsupportedConstruct => "UnsupportedConstruct"
  | unboundVariable => "UnboundVariable"
  | unresolvedPath => "UnresolvedPath"
  | type => "TypeError"
  | divisionByZero => "DivisionByZero"
  | arithmetic => "ArithmeticError"

end ErrorKind

namespace ParseError

/-- The kind of a parse error: a word that is kept for later is an unsupported construct. -/
def kind (error : ParseError) : ErrorKind :=
  match error.fault with
  | .unsupported _ => .unsupportedConstruct
  | _ => .parse

end ParseError

namespace EvalError

/-- The kind of an evaluation error. -/
def kind : EvalError → ErrorKind
  | unboundVariable _ => .unboundVariable
  | unresolvedPath _ | thisOutsideObject => .unresolvedPath
  | operandTypes _ _ _ | operandType _ _ | zeroStep => .type
  | divisionByZero => .divisionByZero
  | integerOverflow _ | nonFiniteNumber => .arithmetic
  | breakOutsideLoop | continueOutsideLoop => .unsupportedConstruct

end EvalError

namespace CompileError

/-- The kind of an error. -/
def kind : CompileError → ErrorKind
  | lex _ => .lex
  | parse error => error.kind
  | eval error => error.kind

end CompileError

/-- The tree of a source. -/
def parseSource (source : String) : Except CompileError Document := do
  let tokens ← (tokenize source).mapError .lex
  (Document.ofTokens tokens).mapError .parse

/-- The JSON value of a source. -/
def buildSource (source : String) : Except CompileError Json := do
  let document ← parseSource source
  document.build.mapError .eval

/-- The JSON text of a source. -/
def compile (source : String) (spacing : Spacing) : Except CompileError String := do
  let json ← buildSource source
  return .ofList (json.render spacing)

end JsonTemplate
