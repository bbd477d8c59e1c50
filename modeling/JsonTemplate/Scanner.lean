import JsonTemplate.Scanner.Lexeme

/-!
# Scanning a source

A scanner stands at a byte offset of a source with the characters that are left. Each call of
`nextToken` skips blanks and reads one lexeme; at the end of the source it gives the same
end-of-input token again and again. `next?` is the same step for a consumer that stops there.
`tokenize` runs a fresh scanner to the end and gives all tokens or the first fault.
-/

namespace JsonTemplate

/-- A fault and the byte offset at which it is reported. -/
structure LexError where
  fault : LexFault
  position : Nat
deriving DecidableEq, Repr

/-- A decimal number as a string. -/
def decimalString (n : Nat) : String := .ofList (Nat.toDigits 10 n)

namespace LexFault

/-- What a fault's message says before its position. -/
def message : LexFault → String
  | unexpectedCharacter character => "Unexpected character '" ++ .singleton character ++ "'"
  | loneBang => "Expected '=' after '!'"
  | unterminatedString => "Unterminated string literal"
  | invalidEscape => "Invalid escape sequence in string literal"
  | invalidInteger literal => "Invalid integer literal '" ++ .ofList literal ++ "'"
  | invalidFloat literal => "Invalid float literal '" ++ .ofList literal ++ "'"

end LexFault

namespace LexError

/-- The text of a scanning error as it is reported. -/
def message (error : LexError) : String :=
  error.fault.message ++ " at position " ++ decimalString error.position

end LexError

/-- The characters between lexemes. -/
def isSpace (c : Char) : Bool := c == ' ' || c == '\t' || c == '\n' || c == '\r'

/-- A place in a source: the characters left, the byte offset of the first of them, and
whether the end of the input has been given. -/
structure Scanner where
  rest : List Char
  offset : Nat
  finished : Bool
deriving DecidableEq, Repr

namespace Scanner

/-- A scanner at the start of a source. -/
def ofSource (source : String) : Scanner := ⟨source.toList, 0, false⟩

/-- Skips blanks and reads one token. -/
def nextToken (scanner : Scanner) : Except LexError Token × Scanner :=
  let start := scanner.offset + byteLength (scanner.rest.takeWhile isSpace)
  match scanner.rest.dropWhile isSpace with
  | [] => (.ok ⟨.endOfInput, ⟨start, start⟩⟩, ⟨[], start, true⟩)
  | c :: rest =>
    let lexeme := Lexeme.read c rest
    let stop := start + byteLength lexeme.consumed
    (match lexeme.outcome with
      | .ok kind => .ok ⟨kind, ⟨start, stop⟩⟩
      | .error (fault, distance) => .error ⟨fault, start + distance⟩,
      ⟨lexeme.rest, stop, scanner.finished⟩)

/-- The next token, unless the end of the input has been given. -/
def next? (scanner : Scanner) : Option (Except LexError Token) × Scanner :=
  if scanner.finished then (none, scanner)
  else
    let (result, scanner) := scanner.nextToken
    (some result, scanner)

/-- A token other than the end leaves less to scan. -/
theorem length_rest_nextToken_lt {scanner : Scanner} {token : Token}
    (h : scanner.nextToken.1 = .ok token) (hk : token.kind ≠ .endOfInput) :
    scanner.nextToken.2.rest.length < scanner.rest.length := by
  have hdrop := (List.dropWhile_sublist isSpace (l := scanner.rest)).length_le
  unfold nextToken at h ⊢
  revert h
  cases hr : scanner.rest.dropWhile isSpace with
  | nil =>
    intro h
    cases h
    exact absurd rfl hk
  | cons c rest =>
    intro h
    rw [hr] at hdrop
    dsimp only at h ⊢
    split at h
    · rename_i kind ho
      exact Nat.lt_of_lt_of_le (Lexeme.length_rest_lt_of_ok ho) hdrop
    · cases h

/-- All tokens from here on, the last one being the end of the input, or the first fault. -/
def tokens (scanner : Scanner) : Except LexError (List Token) :=
  match h : scanner.nextToken.1 with
  | .error error => .error error
  | .ok token =>
    if hk : token.kind = .endOfInput then .ok [token]
    else
      have := length_rest_nextToken_lt h hk
      match scanner.nextToken.2.tokens with
      | .error error => .error error
      | .ok rest => .ok (token :: rest)
termination_by scanner.rest.length

end Scanner

/-- The tokens of a source. -/
def tokenize (source : String) : Except LexError (List Token) :=
  (Scanner.ofSource source).tokens

end JsonTemplate
