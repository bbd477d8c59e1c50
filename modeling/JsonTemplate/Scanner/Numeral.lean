import JsonTemplate.Number.Integer
import JsonTemplate.Token

/-!
# Numerals

A numeral is digits, then at most one point with any number of digits after it, then at most
one exponent. `Numeral.read` takes the longest one from the front of a text and loses nothing:
the numeral's own text followed by the rest is the text it was read from. A numeral with a
point or an exponent is a double, any other an integer; it is refused when the exponent has no
digits or the value is out of range.

An exponent counts up to the digit with which it reaches `2 ^ 16`, and the digits after that
one are ignored. Such an exponent is far beyond those of doubles, so they make no difference
unless the rest of the numeral has as many digits itself.
-/

namespace JsonTemplate

/-- The exponent of a numeral: its letter, its sign if it has one, and its digits. -/
structure Exponent where
  mark : Char
  sign : Option Char
  digits : List Char
deriving DecidableEq, Repr

namespace Exponent

/-- The characters of an exponent, with its sign. -/
def text (exponent : Exponent) : List Char :=
  exponent.mark :: exponent.sign.toList ++ exponent.digits

/-- The size from which on an exponent's further digits are ignored. -/
def enough : Nat := 2 ^ 16

/-- The number that the digits of an exponent count for, after the digits already read. -/
def sizeAfter (size : Nat) : List Char → Nat
  | [] => size
  | c :: rest =>
    if enough ≤ size then size else sizeAfter (10 * size + (c.toNat - '0'.toNat)) rest

/-- The number that the digits of an exponent count for. -/
def size (exponent : Exponent) : Nat := sizeAfter 0 exponent.digits

/-- The number that an exponent stands for. -/
def value (exponent : Exponent) : Int :=
  if exponent.sign = some '-' then -(exponent.size : Int) else exponent.size

/-- Further digits make a number no smaller. -/
theorem le_ofDigitChars (size : Nat) (digits : List Char) :
    size ≤ Nat.ofDigitChars 10 digits size := by
  induction digits generalizing size with
  | nil => exact Nat.le_of_eq (Nat.ofDigitChars_nil).symm
  | cons c rest ih =>
    rw [Nat.ofDigitChars_cons]
    exact Nat.le_trans (by omega) (ih _)

/-- A size that is not enough has been counted exactly. -/
theorem sizeAfter_eq {size : Nat} {digits : List Char}
    (h : Nat.ofDigitChars 10 digits size < enough) :
    sizeAfter size digits = Nat.ofDigitChars 10 digits size := by
  induction digits generalizing size with
  | nil => simp [sizeAfter]
  | cons c rest ih =>
    have hsize := Nat.lt_of_le_of_lt (le_ofDigitChars size (c :: rest)) h
    rw [sizeAfter, if_neg (Nat.not_le_of_lt hsize), Nat.ofDigitChars_cons]
    rw [Nat.ofDigitChars_cons] at h
    exact ih h

/-- The digits of an exponent that is not too large count for the number they spell. -/
theorem size_eq {exponent : Exponent} (h : readDigits exponent.digits < enough) :
    exponent.size = readDigits exponent.digits :=
  sizeAfter_eq h

/-- The exponent at the front of a text that starts with `e` or `E`, and the rest. -/
def read? : List Char → Option (Exponent × List Char)
  | [] => none
  | mark :: rest =>
    if mark = 'e' ∨ mark = 'E' then
      match rest with
      | [] => some (⟨mark, none, []⟩, [])
      | sign :: digits =>
        if sign = '+' ∨ sign = '-' then
          some (⟨mark, some sign, digits.takeWhile Char.isDigit⟩, digits.dropWhile Char.isDigit)
        else some (⟨mark, none, rest.takeWhile Char.isDigit⟩, rest.dropWhile Char.isDigit)
    else none

/-- An exponent and what is left behind it make up the text. -/
theorem text_append_of_read? {text rest : List Char} {exponent : Exponent}
    (h : read? text = some (exponent, rest)) : exponent.text ++ rest = text := by
  unfold read? at h
  split at h
  · cases h
  split at h
  · split at h
    · cases h; rfl
    · split at h <;> cases h <;> simp [Exponent.text]
  · cases h

end Exponent

/-- The parts of a numeral. -/
structure Numeral where
  whole : List Char
  fraction : Option (List Char)
  exponent : Option Exponent
deriving DecidableEq, Repr

namespace Numeral

/-- The fraction's text, with its point. -/
def fractionText : Option (List Char) → List Char
  | none => []
  | some digits => '.' :: digits

/-- The exponent's text, empty if there is none. -/
def exponentText : Option Exponent → List Char
  | none => []
  | some exponent => exponent.text

/-- The characters of a numeral. -/
def text (numeral : Numeral) : List Char :=
  numeral.whole ++ fractionText numeral.fraction ++ exponentText numeral.exponent

/-- The fraction at the front of a text, if a point stands there, and the rest. -/
def readFraction : List Char → Option (List Char) × List Char
  | '.' :: rest => (some (rest.takeWhile Char.isDigit), rest.dropWhile Char.isDigit)
  | rest => (none, rest)

/-- The exponent at the front of a text, if there is one, and the rest. -/
def readExponent (text : List Char) : Option Exponent × List Char :=
  match Exponent.read? text with
  | some (exponent, rest) => (some exponent, rest)
  | none => (none, text)

/-- The longest numeral at the front of a text, and the rest. -/
def read (text : List Char) : Numeral × List Char :=
  let fraction := readFraction (text.dropWhile Char.isDigit)
  let exponent := readExponent fraction.2
  (⟨text.takeWhile Char.isDigit, fraction.1, exponent.1⟩, exponent.2)

/-- A fraction and what is left behind it make up the text. -/
theorem fractionText_append (text : List Char) :
    fractionText (readFraction text).1 ++ (readFraction text).2 = text := by
  unfold readFraction
  split <;> simp [fractionText]

/-- An exponent, if there is one, and what is left make up the text. -/
theorem exponentText_append (text : List Char) :
    exponentText (readExponent text).1 ++ (readExponent text).2 = text := by
  unfold readExponent
  split
  · rename_i h
    exact Exponent.text_append_of_read? h
  · rfl

/-- Reading a numeral loses nothing. -/
theorem text_append_read (text : List Char) :
    (read text).1.text ++ (read text).2 = text := by
  simp [read, Numeral.text, exponentText_append, fractionText_append]

/-- Whether the numeral has a point or an exponent. -/
def isFloat (numeral : Numeral) : Bool := numeral.fraction.isSome || numeral.exponent.isSome

/-- Whether the numeral has an exponent without digits. -/
def isCut (numeral : Numeral) : Bool := numeral.exponent.any fun e => e.digits.isEmpty

/-- The decimal that the numeral spells. -/
def decimal (numeral : Numeral) : Decimal :=
  let fraction := numeral.fraction.getD []
  ⟨readDigits (numeral.whole ++ fraction),
    (numeral.exponent.map Exponent.value).getD 0 - fraction.length⟩

/-- The double that the numeral spells. -/
def double (numeral : Numeral) : Double := numeral.decimal.toDouble false

/-- The greatest magnitude of an integer token, that of the least 64-bit integer. -/
def greatestInteger : Nat := 2 ^ 63

/-- The token that the numeral is, if its value is in range. -/
def kind? (numeral : Numeral) : Option TokenKind :=
  if numeral.isFloat then
    if !numeral.isCut && numeral.double.isFinite then some (.float numeral.double) else none
  else
    let magnitude := readDigits numeral.whole
    if magnitude ≤ greatestInteger then some (.integer magnitude) else none

/-- No numeral is an end of input. -/
theorem kind?_ne_endOfInput (numeral : Numeral) : numeral.kind? ≠ some .endOfInput := by
  unfold kind?
  split
  · split <;> simp
  · dsimp only
    split <;> simp

end Numeral

end JsonTemplate
