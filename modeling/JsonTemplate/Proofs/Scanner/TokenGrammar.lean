import JsonTemplate.Proofs.Lookahead
import JsonTemplate.Scanner

/-!
# The grammar of tokens

Which texts each kind of token may have, and which characters may not follow them. The rules
are stated without the scanner: they say what a lexeme looks like, not how it is found. A
lexeme determines its payload, and the condition on the next character makes it the longest
one at its place.

A source is tiled by lexemes when only blanks stand between them. Each token then carries the
byte offsets at which its lexeme starts and ends.
-/

namespace JsonTemplate

/-- The decimal digits of a numeral's part. -/
def AllDigits (digits : List Char) : Prop := ∀ c ∈ digits, c.isDigit

/-- An exponent: the letter, an optional sign and at least one digit. -/
structure Exponent.WellFormed (exponent : Exponent) : Prop where
  mark : exponent.mark = 'e' ∨ exponent.mark = 'E'
  sign : ∀ sign ∈ exponent.sign, sign = '+' ∨ sign = '-'
  digits : AllDigits exponent.digits
  digits_ne_nil : exponent.digits ≠ []

/-- A numeral: at least one digit, at most one point with digits after it, at most one
exponent. -/
structure Numeral.WellFormed (numeral : Numeral) : Prop where
  whole : AllDigits numeral.whole
  whole_ne_nil : numeral.whole ≠ []
  fraction : ∀ digits ∈ numeral.fraction, AllDigits digits
  exponent : ∀ exponent ∈ numeral.exponent, exponent.WellFormed

/-- A hexadecimal digit in either case. -/
def HexDigit (c : Char) : Prop := c.isDigit ∨ ('a' ≤ c ∧ c ≤ 'f') ∨ ('A' ≤ c ∧ c ≤ 'F')

/-- What may stand between the quotes of a string literal. -/
inductive StringBody : List Char → Prop
  | nil : StringBody []
  | plain {c : Char} {rest : List Char} :
      c ≠ '"' → c ≠ '\\' → StringBody rest → StringBody (c :: rest)
  | simple {c : Char} {rest : List Char} :
      c ∈ ['"', '\\', '/', 'b', 'f', 'n', 'r', 't'] → StringBody rest →
      StringBody ('\\' :: c :: rest)
  | numbered {c₁ c₂ c₃ c₄ : Char} {rest : List Char} :
      HexDigit c₁ → HexDigit c₂ → HexDigit c₃ → HexDigit c₄ → StringBody rest →
      StringBody ('\\' :: 'u' :: c₁ :: c₂ :: c₃ :: c₄ :: rest)

/-- The texts of each kind of token. -/
inductive Spells : TokenKind → List Char → Prop
  | keyword (word : Keyword) : Spells (.keyword word) word.text.toList
  | identifier {first : Char} {more : List Char} :
      first.isAlpha → (∀ c ∈ more, isWordChar c) →
      (∀ word : Keyword, word.text.toList ≠ first :: more) →
      Spells (.identifier (.ofList (first :: more))) (first :: more)
  | integer {digits : List Char} :
      digits ≠ [] → AllDigits digits → readDigits digits ≤ 2 ^ 63 →
      Spells (.integer (readDigits digits)) digits
  | float {numeral : Numeral} :
      numeral.WellFormed → numeral.fraction.isSome ∨ numeral.exponent.isSome →
      numeral.double.isFinite → Spells (.float numeral.double) numeral.text
  | string {body : List Char} :
      StringBody body → Spells (.string (.ofList body)) ('"' :: body ++ ['"'])
  | symbol (sign : Symbol) : Spells (.symbol sign) sign.text.toList

/-- Whether a character would make a lexeme of the given kind and text longer. A float without
an exponent has a point already, and nothing but a digit continues an exponent. -/
def Continues : TokenKind → List Char → Char → Prop
  | .keyword _, _, next | .identifier _, _, next => isWordChar next
  | .integer _, _, next => next.isDigit ∨ next = '.' ∨ next = 'e' ∨ next = 'E'
  | .float _, word, next =>
    next.isDigit ∨ ('e' ∉ word ∧ 'E' ∉ word) ∧ (next = 'e' ∨ next = 'E')
  | .symbol .minus, _, next => next = '>'
  | .symbol .assign, _, next | .symbol .less, _, next | .symbol .greater, _, next => next = '='
  | _, _, _ => False

/-- A lexeme of the given kind, followed by a text that does not continue it. -/
structure LongestLexeme (kind : TokenKind) (word rest : List Char) : Prop where
  spells : Spells kind word
  longest : NotBefore (Continues kind word) rest

/-- Lexemes in order that cover a text which starts at a byte offset, with nothing but blanks
between them and at both ends. -/
inductive Tiling : Nat → List Char → List Token → Prop
  | blank {offset : Nat} {gap : List Char} :
      (∀ c ∈ gap, isSpace c) → Tiling offset gap []
  | lexeme {offset start stop : Nat} {gap word rest : List Char} {kind : TokenKind}
      {tokens : List Token} :
      (∀ c ∈ gap, isSpace c) → LongestLexeme kind word rest →
      start = offset + byteLength gap → stop = start + byteLength word →
      Tiling stop rest tokens →
      Tiling offset (gap ++ word ++ rest) (⟨kind, ⟨start, stop⟩⟩ :: tokens)

end JsonTemplate
