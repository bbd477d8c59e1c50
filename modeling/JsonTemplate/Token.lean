import JsonTemplate.Number.Layout

/-!
# Tokens

The words and signs of the template language, each with the bytes of the source that it
occupies. A string token keeps the raw text between its quotes; an integer token is a
magnitude, its sign being a token of its own.
-/

namespace JsonTemplate

/-- The words that are not identifiers. -/
inductive Keyword where
  | var | if_ | else_ | elif | parent | for_ | in_ | step | while_ | return_ | break_ | continue_
  | this | true_ | false_ | null
deriving DecidableEq, Repr

namespace Keyword

/-- The spelling of a keyword. -/
def text : Keyword → String
  | var => "var"
  | if_ => "if"
  | else_ => "else"
  | elif => "elif"
  | parent => "parent"
  | for_ => "for"
  | in_ => "in"
  | step => "step"
  | while_ => "while"
  | return_ => "return"
  | break_ => "break"
  | continue_ => "continue"
  | this => "this"
  | true_ => "true"
  | false_ => "false"
  | null => "null"

/-- All keywords. -/
def all : List Keyword :=
  [var, if_, else_, elif, parent, for_, in_, step, while_, return_, break_, continue_, this,
    true_, false_, null]

/-- The keyword that a word is, if it is one. -/
def ofText? (word : String) : Option Keyword := all.find? (·.text = word)

/-- Words that are reserved for control flow and start no expression. -/
def isControl : Keyword → Bool
  | if_ | elif | else_ | while_ | for_ | in_ | step | break_ | continue_ | parent => true
  | _ => false

end Keyword

/-- The signs of the language. -/
inductive Symbol where
  | plus | minus | star | slash | arrow
  | assign | equal | notEqual | less | greater | lessEqual | greaterEqual
  | colon | comma | dot | leftParen | rightParen | leftBracket | rightBracket
  | leftBrace | rightBrace | semicolon
deriving DecidableEq, Repr

namespace Symbol

/-- The spelling of a symbol. -/
def text : Symbol → String
  | plus => "+"
  | minus => "-"
  | star => "*"
  | slash => "/"
  | arrow => "->"
  | assign => "="
  | equal => "=="
  | notEqual => "!="
  | less => "<"
  | greater => ">"
  | lessEqual => "<="
  | greaterEqual => ">="
  | colon => ":"
  | comma => ","
  | dot => "."
  | leftParen => "("
  | rightParen => ")"
  | leftBracket => "["
  | rightBracket => "]"
  | leftBrace => "\x7b"
  | rightBrace => "\x7d"
  | semicolon => ";"

/-- The symbol of two characters that two characters form. -/
def ofPair? : Char → Char → Option Symbol
  | '-', '>' => some arrow
  | '=', '=' => some equal
  | '!', '=' => some notEqual
  | '<', '=' => some lessEqual
  | '>', '=' => some greaterEqual
  | _, _ => none

/-- The symbol that a character forms alone. -/
def ofChar? : Char → Option Symbol
  | '+' => some plus
  | '-' => some minus
  | '*' => some star
  | '/' => some slash
  | '=' => some assign
  | '<' => some less
  | '>' => some greater
  | ':' => some colon
  | ',' => some comma
  | '.' => some dot
  | '(' => some leftParen
  | ')' => some rightParen
  | '[' => some leftBracket
  | ']' => some rightBracket
  | '{' => some leftBrace
  | '}' => some rightBrace
  | ';' => some semicolon
  | _ => none

end Symbol

/-- A range of byte offsets in the source. -/
structure Span where
  start : Nat
  stop : Nat
deriving DecidableEq, Repr

/-- What a token is. -/
inductive TokenKind where
  | identifier (name : String)
  | integer (magnitude : Nat)
  | float (value : Double)
  | string (raw : String)
  | keyword (word : Keyword)
  | symbol (sign : Symbol)
  | endOfInput
deriving DecidableEq, Repr

namespace TokenKind

/-- How messages name a token. -/
def describe : TokenKind → String
  | identifier name => "identifier '" ++ name ++ "'"
  | integer magnitude => "integer " ++ .ofList (Nat.toDigits 10 magnitude)
  | float value => "float " ++ .ofList (Layout.plain.text value)
  | string raw => "string \"" ++ raw ++ "\""
  | keyword word => "'" ++ word.text ++ "'"
  | symbol sign => "'" ++ sign.text ++ "'"
  | endOfInput => "end of input"

/-- The word of a keyword token. -/
def word? : TokenKind → Option String
  | keyword word => some word.text
  | _ => none

end TokenKind

/-- A token and its place in the source. -/
structure Token where
  kind : TokenKind
  span : Span
deriving DecidableEq, Repr

end JsonTemplate
