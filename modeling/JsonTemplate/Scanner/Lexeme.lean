import JsonTemplate.Scanner.Body
import JsonTemplate.Scanner.Numeral

/-!
# Lexemes

`Lexeme.read` takes one lexeme from the front of a text whose first character is not blank: a
symbol, a word, a numeral or a string literal, always the longest one. The result does not
depend on where in the source the text stands, and nothing is lost: what was consumed followed
by the rest is the text, also when the lexeme is faulty. A faulty lexeme consumes what was
looked at, except that a character which starts no lexeme is left where it is.
-/

namespace JsonTemplate

/-- What is wrong with a lexeme. -/
inductive LexFault where
  | unexpectedCharacter (character : Char)
  | loneBang
  | unterminatedString
  | invalidEscape
  | invalidInteger (literal : List Char)
  | invalidFloat (literal : List Char)
deriving DecidableEq, Repr

/-- The number of bytes of a text in UTF-8. -/
def byteLength (text : List Char) : Nat := text.foldr (fun c length => c.utf8Size + length) 0

/-- What is read from the front of a text: the characters consumed, those left, and the token
or the fault, a fault with its distance in bytes from the front. -/
structure Lexeme where
  consumed : List Char
  rest : List Char
  outcome : Except (LexFault × Nat) TokenKind

/-- Whether a character continues a word. -/
def isWordChar (c : Char) : Bool := c.isAlphanum || c == '_'

namespace Lexeme

/-- The keyword or identifier that a word is. -/
def wordKind (word : List Char) : TokenKind :=
  match Keyword.ofText? (.ofList word) with
  | some keyword => .keyword keyword
  | none => .identifier (.ofList word)

/-- The longest word at the front of a text. -/
def readWord (text : List Char) : Lexeme :=
  let word := text.takeWhile isWordChar
  ⟨word, text.dropWhile isWordChar, .ok (wordKind word)⟩

/-- The longest numeral at the front of a text. -/
def readNumeral (text : List Char) : Lexeme :=
  let (numeral, rest) := Numeral.read text
  ⟨numeral.text, rest,
    match numeral.kind? with
    | some kind => .ok kind
    | none =>
      .error (if numeral.isFloat then .invalidFloat numeral.text
        else .invalidInteger numeral.text, 0)⟩

/-- The string literal whose opening quote stands before a text. A fault inside the literal
is placed at its backslash, and a missing end at the opening quote. -/
def readString (text : List Char) : Lexeme :=
  let body := Body.read text
  let backslash := byteLength ('"' :: body.raw)
  ⟨'"' :: body.raw ++ body.tail, body.rest,
    match body.ending with
    | .closed => .ok (.string (.ofList body.raw))
    | .unclosed => .error (.unterminatedString, 0)
    | .badEscape => .error (.invalidEscape, backslash)
    | .lastBackslash => .error (.unterminatedString, backslash)⟩

/-- The symbol of two characters at the front of a text, if there is one. -/
def readPair? : List Char → Option Lexeme
  | c :: d :: rest => (Symbol.ofPair? c d).map fun sign => ⟨[c, d], rest, .ok (.symbol sign)⟩
  | _ => none

/-- The lexeme at the front of a text that starts with the given character. -/
def read (c : Char) (rest : List Char) : Lexeme :=
  match readPair? (c :: rest) with
  | some lexeme => lexeme
  | none =>
    match Symbol.ofChar? c with
    | some sign => ⟨[c], rest, .ok (.symbol sign)⟩
    | none =>
      if c = '!' then ⟨[c], rest, .error (.loneBang, 0)⟩
      else if c = '"' then readString rest
      else if c.isAlpha then readWord (c :: rest)
      else if c.isDigit then readNumeral (c :: rest)
      else ⟨[], c :: rest, .error (.unexpectedCharacter c, 0)⟩

/-- Reading a lexeme loses nothing. -/
theorem consumed_append_read (c : Char) (rest : List Char) :
    (read c rest).consumed ++ (read c rest).rest = c :: rest := by
  unfold read
  split
  · rename_i lexeme h
    unfold readPair? at h
    split at h
    · rename_i hcs
      simp only [Option.map_eq_some_iff] at h
      obtain ⟨sign, -, rfl⟩ := h
      simp_all
    · cases h
  · split
    · rfl
    · split
      · rfl
      · split
        · rename_i h
          have := Body.append_read rest
          simp_all [readString]
        · split
          · simp [readWord]
          · split
            · exact Numeral.text_append_read _
            · rfl

/-- A lexeme that is a token consumes at least one character. -/
theorem consumed_ne_nil_of_ok {c : Char} {rest : List Char} {kind : TokenKind} :
    (read c rest).outcome = .ok kind → (read c rest).consumed ≠ [] := by
  unfold read
  split
  · rename_i lexeme hl
    unfold readPair? at hl
    split at hl
    · simp only [Option.map_eq_some_iff] at hl
      obtain ⟨sign, -, rfl⟩ := hl
      simp
    · cases hl
  · repeat' split
    · simp
    · simp
    · simp [readString]
    · rename_i h
      simp [readWord, isWordChar, Char.isAlphanum, h]
    · rename_i h
      simp [readNumeral, Numeral.read, Numeral.text, h]
    · simp

/-- A lexeme that is a token leaves less than there was. -/
theorem length_rest_lt_of_ok {c : Char} {rest : List Char} {kind : TokenKind}
    (h : (read c rest).outcome = .ok kind) :
    (read c rest).rest.length < (c :: rest).length := by
  have hl := congrArg List.length (consumed_append_read c rest)
  have hn := List.length_pos_iff.mpr (consumed_ne_nil_of_ok h)
  simp only [List.length_append] at hl
  omega

/-- No lexeme is the end of the input. -/
theorem outcome_ne_endOfInput (c : Char) (rest : List Char) :
    (read c rest).outcome ≠ .ok .endOfInput := by
  unfold read
  split
  · rename_i lexeme hl
    unfold readPair? at hl
    split at hl
    · simp only [Option.map_eq_some_iff] at hl
      obtain ⟨sign, -, rfl⟩ := hl
      simp
    · cases hl
  · repeat' split
    · simp
    · simp
    · simp only [readString]
      split <;> simp
    · simp only [readWord, wordKind]
      split <;> simp
    · simp only [readNumeral]
      split
      · rename_i h
        intro hk
        cases hk
        exact Numeral.kind?_ne_endOfInput _ h
      · simp
    · simp

end Lexeme

end JsonTemplate
