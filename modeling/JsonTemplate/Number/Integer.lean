import JsonTemplate.Number.Double

/-!
# Integers of 64 bits

Arithmetic on integers is done on whole numbers without bound; `integer?` then gives the
64-bit integer with exactly that value, if there is one. Texts spell integers in decimal, with
an optional sign when they are read and a minus sign where needed when they are written.
-/

namespace JsonTemplate

/-- The place of a whole number when counting up from zero, or down from minus one. -/
def countFromZero : Int → Nat
  | .ofNat n => n
  | .negSucc n => n

/-- The 64-bit integer equal to a whole number, if there is one: there are `2 ^ 63` of them
from zero up and as many from minus one down. -/
def integer? (n : Int) : Option Int64 :=
  if countFromZero n < 2 ^ 63 then some (.ofInt n) else none

/-- Whether all characters are decimal digits and there is at least one. -/
def isDigits (text : List Char) : Bool := !text.isEmpty && text.all Char.isDigit

/-- The number that a list of decimal digits spells. -/
def readDigits (digits : List Char) : Nat := Nat.ofDigitChars 10 digits 0

/-- The whole number that digits with an optional sign spell. -/
def readSigned? : List Char → Option Int
  | '-' :: digits => if isDigits digits then some (-(readDigits digits : Int)) else none
  | '+' :: digits => if isDigits digits then some (readDigits digits) else none
  | digits => if isDigits digits then some (readDigits digits) else none

/-- A whole number in decimal. -/
def integerText (n : Int) : List Char :=
  (if n < 0 then ['-'] else []) ++ Nat.toDigits 10 n.natAbs

/-- A two's complement below a bound is that of a number between the bound and its negative. -/
theorem countFromZero_lt_iff {n : Int} {bound : Nat} :
    countFromZero n < bound ↔ -(bound : Int) ≤ n ∧ n < bound := by
  cases n <;> simp only [countFromZero, Int.ofNat_eq_natCast, Int.negSucc_eq] <;> omega

/-- The 64-bit integers reach from `-2 ^ 63` to below `2 ^ 63`. -/
theorem integer?_eq (n : Int) :
    integer? n = if -2 ^ 63 ≤ n ∧ n < 2 ^ 63 then some (.ofInt n) else none := by
  simp only [integer?, countFromZero_lt_iff]
  rfl

/-- The integer of a number in range is that number. -/
theorem toInt_of_integer? {n : Int} {i : Int64} (h : integer? n = some i) : i.toInt = n := by
  rw [integer?_eq] at h
  split at h
  · rename_i hn
    cases h
    exact Int64.toInt_ofInt_of_le hn.1 hn.2
  · cases h

end JsonTemplate
