/-!
# Escapes in strings

A string literal is kept as the raw text between its quotes. Decoding replaces each escape by
what it stands for: one of eight letters and signs, or `\u` with the number of a character in
hexadecimal. Decoding never fails. A number that names no character, such as half of a
surrogate pair, becomes U+FFFD, and a backslash that starts no escape stays as it is.

Quoting is the opposite direction, for output: quotes, backslashes and control characters are
escaped and nothing else is.
-/

namespace JsonTemplate

/-- The character that a one-letter escape stands for. -/
def simpleEscape? : Char → Option Char
  | '"' => some '"'
  | '\\' => some '\\'
  | '/' => some '/'
  | 'b' => some '\x08'
  | 'f' => some '\x0c'
  | 'n' => some '\n'
  | 'r' => some '\r'
  | 't' => some '\t'
  | _ => none

/-- The value of a hexadecimal digit. -/
def hexValue? (c : Char) : Option Nat :=
  if c.isDigit then some (c.toNat - '0'.toNat)
  else if 'a' ≤ c ∧ c ≤ 'f' then some (c.toNat - 'a'.toNat + 10)
  else if 'A' ≤ c ∧ c ≤ 'F' then some (c.toNat - 'A'.toNat + 10)
  else none

/-- Whether a character is a hexadecimal digit. -/
def isHexDigit (c : Char) : Bool := (hexValue? c).isSome

/-- The number that hexadecimal digits spell after the digits already read. -/
def readHexAfter? (value : Nat) : List Char → Option Nat
  | [] => some value
  | c :: rest => do readHexAfter? (16 * value + (← hexValue? c)) rest

/-- The number that at least one hexadecimal digit spells, after an optional plus sign. -/
def readHex? : List Char → Option Nat
  | [] => none
  | ['+'] => none
  | '+' :: digits => readHexAfter? 0 digits
  | digits => readHexAfter? 0 digits

/-- The character with the given hexadecimal number, or U+FFFD where there is none. -/
def numberedChar (hex : List Char) : Char :=
  match readHex? hex with
  | some n => if n.isValidChar then .ofNat n else '\ufffd'
  | none => '\ufffd'

/-- The text that an escape stands for and what follows it, from after the backslash. -/
def decodeEscape : List Char → List Char × List Char
  | [] => (['\\'], [])
  | 'u' :: rest => ([numberedChar (rest.take 4)], rest.drop 4)
  | c :: rest =>
    match simpleEscape? c with
    | some decoded => ([decoded], rest)
    | none => (['\\', c], rest)

/-- Decoding an escape takes characters and gives none back. -/
theorem length_decodeEscape_snd_le (text : List Char) :
    (decodeEscape text).2.length ≤ text.length := by
  unfold decodeEscape
  split
  · simp
  · simp; omega
  · split <;> simp

/-- The text of a string literal, from the raw text between its quotes. -/
def decode : List Char → List Char
  | [] => []
  | '\\' :: rest =>
    have := length_decodeEscape_snd_le rest
    (decodeEscape rest).1 ++ decode (decodeEscape rest).2
  | c :: rest => c :: decode rest
termination_by text => text.length

/-- The text of a string literal as a string. -/
def decodeString (raw : String) : String := .ofList (decode raw.toList)

/-- How a character is written between quotes. -/
def quoteChar (c : Char) : List Char :=
  if c = '"' then ['\\', '"']
  else if c = '\\' then ['\\', '\\']
  else if c = '\x08' then ['\\', 'b']
  else if c = '\x0c' then ['\\', 'f']
  else if c = '\n' then ['\\', 'n']
  else if c = '\r' then ['\\', 'r']
  else if c = '\t' then ['\\', 't']
  else if c < ' ' then
    ['\\', 'u', '0', '0', Nat.digitChar (c.toNat / 16), Nat.digitChar (c.toNat % 16)]
  else [c]

/-- A text between quotes. -/
def quote (text : List Char) : List Char := '"' :: text.flatMap quoteChar ++ ['"']

end JsonTemplate
