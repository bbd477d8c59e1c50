import JsonTemplate.Number.Double

/-!
# Decimals that stand for doubles

A decimal is a whole number of digits times a power of ten. Reading takes it to the nearest
magnitude. The shortest decimal of a magnitude is found by trying grids of one, two, up to
seventeen digits: on each grid only the two neighbours of the number can read back, the first
grid with one that does is taken, and of two the nearer. When both are equally near a `Tie`
decides. The test is the reader itself, so a decimal found this way reads back by
construction; after seventeen digits, which are always enough, stands the exact expansion.
-/

namespace JsonTemplate

/-- The number `digits * 10 ^ exponent`. -/
structure Decimal where
  digits : Nat
  exponent : Int
deriving DecidableEq, Repr

/-- Which of two equally near neighbours on a decimal grid stands for a double. -/
inductive Tie where
  | even
  | up
deriving DecidableEq, Repr

namespace Decimal

/-- How many digits a number is written with. -/
def digitCount (n : Nat) : Nat := (Nat.toDigits 10 n).length

/-- The magnitude nearest to a decimal. Decimals far outside the range of doubles are decided
by their size alone, so no power of ten larger than the range is ever formed. -/
def magnitude (d : Decimal) : Nat :=
  if d.digits = 0 then 0
  else if 400 < d.exponent then infiniteMagnitude
  else if digitCount d.digits + d.exponent < -400 then 0
  else if 0 ≤ d.exponent then
    Double.nearest (d.digits * 10 ^ d.exponent.toNat * Double.unitsInOne) 1
  else Double.nearest (d.digits * Double.unitsInOne) (10 ^ (-d.exponent).toNat)

/-- The magnitude of a decimal never goes beyond infinity. -/
theorem magnitude_le (d : Decimal) : d.magnitude ≤ infiniteMagnitude := by
  unfold magnitude
  split
  · exact Nat.zero_le _
  split
  · exact Nat.le_refl _
  split
  · exact Nat.zero_le _
  split
  · exact Double.nearest_le _ _
  · exact Double.nearest_le _ _

/-- The double nearest to a decimal of the given sign. -/
def toDouble (negative : Bool) (d : Decimal) : Double :=
  ⟨negative, d.magnitude, Nat.lt_of_le_of_lt d.magnitude_le (by decide)⟩

/-- The power of ten of the leading digit of a positive magnitude. -/
def leadingExponent (magnitude : Nat) : Int :=
  digitCount (Double.units magnitude * 10 ^ 340 / Double.unitsInOne) - 341

/-- A magnitude as a quotient of whole numbers of `10 ^ exponent`. -/
def scaled (magnitude : Nat) (exponent : Int) : Nat × Nat :=
  if 0 ≤ exponent then (Double.units magnitude, Double.unitsInOne * 10 ^ exponent.toNat)
  else (Double.units magnitude * 10 ^ (-exponent).toNat, Double.unitsInOne)

/-- The neighbour of a magnitude among the multiples of `10 ^ exponent` that reads back as
the magnitude; the nearer of the two when both do. -/
def onGrid? (tie : Tie) (magnitude : Nat) (exponent : Int) : Option Decimal :=
  let (numerator, denominator) := scaled magnitude exponent
  let below : Decimal := ⟨numerator / denominator, exponent⟩
  let above : Decimal := ⟨numerator / denominator + 1, exponent⟩
  let gap := 2 * (numerator % denominator)
  match below.magnitude == magnitude, above.magnitude == magnitude with
  | false, false => none
  | true, false => some below
  | false, true => some above
  | true, true =>
    if gap < denominator then some below
    else if denominator < gap then some above
    else match tie with
      | .even => some (if below.digits % 2 = 0 then below else above)
      | .up => some above

/-- All digits of a magnitude: a unit is a multiple of `10 ^ -1074`. -/
def exact (magnitude : Nat) : Decimal := ⟨Double.units magnitude * 5 ^ 1074, -1074⟩

/-- The shortest decimal that reads back as a positive finite magnitude, and of those the
nearest to it. -/
def shortest (tie : Tie) (magnitude : Nat) : Decimal :=
  let leading := leadingExponent magnitude
  ((List.range 17).findSome? fun (more : Nat) => onGrid? tie magnitude (leading - more)).getD
    (exact magnitude)

end Decimal

end JsonTemplate
