/-!
# Double-precision numbers

A double is a sign and a 63-bit magnitude. Below the magnitude of infinity every magnitude
stands for a whole number of units of `2 ^ -1074`, the least positive double: the first
`2 ^ 53` magnitudes count the units themselves, and after that the step doubles every
`2 ^ 52` magnitudes. The order of magnitudes is the order of the numbers.

Arithmetic is exact on units and rounds once, to the nearest magnitude, a tie going to the
even one. Magnitudes above infinity are the not-a-numbers; they are carried along unchanged,
so a double that is only moved keeps every bit.
-/

namespace JsonTemplate

-- Powers are those of the core library, also where another library has its own notion.
attribute [instance (20000)] instPowNat
attribute [default_instance 20000] instPowNat

/-- The magnitude of infinity: the first one that stands for no finite number. -/
def infiniteMagnitude : Nat := 0x7FF * 2 ^ 52

/-- A double: its sign, and its other bits read as a number. -/
structure Double where
  negative : Bool
  magnitude : Nat
  magnitude_lt : magnitude < 2 ^ 63 := by decide
deriving DecidableEq, Repr

namespace Double

/-- The number of units in one. -/
def unitsInOne : Nat := 2 ^ 1074

/-- One has so many units because a unit is the least positive double. -/
theorem unitsInOne_eq : unitsInOne = 2 ^ 1074 := by rw [unitsInOne]

/-- The units that a finite magnitude stands for. -/
def units (magnitude : Nat) : Nat :=
  let doublings := magnitude / 2 ^ 52 - 1
  (magnitude - doublings * 2 ^ 52) * 2 ^ doublings

/-- A quotient rounded to the nearest whole number, a tie to the even one. -/
def roundQuotient (numerator denominator : Nat) : Nat :=
  let quotient := numerator / denominator
  let remainder := numerator % denominator
  if 2 * remainder < denominator then quotient
  else if denominator < 2 * remainder then quotient + 1
  else quotient + quotient % 2

/-- The magnitude nearest to a quotient of units, infinity when it is too large. -/
def nearest (numerator denominator : Nat) : Nat :=
  let doublings := (numerator / denominator).log2 - 52
  min (doublings * 2 ^ 52 + roundQuotient numerator (denominator * 2 ^ doublings))
    infiniteMagnitude

/-- Rounding never goes beyond infinity. -/
theorem nearest_le (numerator denominator : Nat) :
    nearest numerator denominator ≤ infiniteMagnitude := Nat.min_le_right _ _

/-- A rounded magnitude fits into the bits of a double. -/
theorem nearest_lt (numerator denominator : Nat) : nearest numerator denominator < 2 ^ 63 :=
  Nat.lt_of_le_of_lt (nearest_le _ _) (by decide)

/-- The double of the given sign nearest to a quotient of units. -/
def ofQuotient (negative : Bool) (numerator denominator : Nat) : Double :=
  ⟨negative, nearest numerator denominator, nearest_lt _ _⟩

/-- Zero of either sign. -/
def zero (negative : Bool) : Double := ⟨negative, 0, by decide⟩

/-- Infinity of either sign. -/
def infinity (negative : Bool) : Double := ⟨negative, infiniteMagnitude, by decide⟩

/-- A not-a-number, the result of an operation without a value. -/
def nan : Double := ⟨false, infiniteMagnitude + 2 ^ 51, by decide⟩

/-- Finite doubles lie below infinity. -/
def isFinite (x : Double) : Bool := x.magnitude < infiniteMagnitude

/-- Whether a double is an infinity. -/
def isInfinite (x : Double) : Bool := x.magnitude == infiniteMagnitude

/-- Whether a double is none of the numbers. -/
def isNaN (x : Double) : Bool := infiniteMagnitude < x.magnitude

/-- Both zeros, whatever their sign. -/
def isZero (x : Double) : Bool := x.magnitude == 0

/-- The double with a given bit pattern: the sign above 63 bits of magnitude. -/
def ofBits (bits : UInt64) : Double :=
  ⟨2 ^ 63 ≤ bits.toNat, bits.toNat % 2 ^ 63, Nat.mod_lt _ (by decide)⟩

/-- The bits of a double: its sign before its magnitude. -/
def toBits (x : Double) : UInt64 :=
  .ofNat ((if x.negative then 2 ^ 63 else 0) + x.magnitude)

/-- The units of a finite double, with its sign. -/
def signedUnits (x : Double) : Int :=
  if x.negative then -(units x.magnitude : Int) else units x.magnitude

/-- The double nearest to a whole number. -/
def ofInt (n : Int) : Double := ofQuotient (n < 0) (n.natAbs * unitsInOne) 1

/-- The whole part of a finite double: its fraction is dropped. -/
def truncate (x : Double) : Int := x.signedUnits.tdiv unitsInOne

/-- The double of the other sign. -/
def neg (x : Double) : Double := { x with negative := !x.negative }

/-- The sum. Two zeros of unlike sign, and a number with its opposite, add to positive zero. -/
def add (x y : Double) : Double :=
  if x.isFinite && y.isFinite then
    let sum := x.signedUnits + y.signedUnits
    if sum = 0 then zero (x.negative && y.negative)
    else ofQuotient (sum < 0) sum.natAbs 1
  else if x.isNaN || y.isNaN then nan
  else if x.isInfinite && y.isInfinite && x.negative != y.negative then nan
  else if x.isInfinite then x
  else y

/-- The sum with the double of the other sign. -/
def sub (x y : Double) : Double := x.add y.neg

/-- The product; its sign is negative exactly when the signs differ, also for zeros. -/
def mul (x y : Double) : Double :=
  let negative := x.negative != y.negative
  if x.isFinite && y.isFinite then
    ofQuotient negative (units x.magnitude * units y.magnitude) unitsInOne
  else if x.isNaN || y.isNaN || x.isZero || y.isZero then nan
  else infinity negative

/-- The quotient, signed as the product is; a nonzero number over zero is infinite. -/
def div (x y : Double) : Double :=
  let negative := x.negative != y.negative
  if x.isNaN || y.isNaN then nan
  else if x.isInfinite then if y.isInfinite then nan else infinity negative
  else if y.isInfinite then zero negative
  else if y.isZero then if x.isZero then nan else infinity negative
  else ofQuotient negative (units x.magnitude * unitsInOne) (units y.magnitude)

end Double

end JsonTemplate
