import JsonTemplate.Number.Decimal

/-!
# The texts of doubles

A double is written with the digits of its shortest decimal, and a `Layout` says the rest:
which way ties go, between which leading exponents the number is written without a power of
ten, and whether a whole number is marked by `.0`. There are two layouts, one for JSON and one
for messages.
-/

namespace JsonTemplate

/-- How a double is written. -/
structure Layout where
  /-- The choice between two equally near decimals. -/
  tie : Tie
  /-- The least and the greatest leading exponent written positionally; all of them if absent. -/
  positional : Option (Int × Int)
  /-- Whether a positional whole number ends in `.0`. -/
  marked : Bool

namespace Layout

/-- JSON numbers: positional from `10 ^ -5` up to `10 ^ 15`, whole numbers marked by `.0`. -/
def json : Layout := ⟨.even, some (-5, 15), true⟩

/-- Numbers in messages: never a power of ten and never a mark. -/
def plain : Layout := ⟨.up, none, false⟩

/-- Digits with the point after the place of `10 ^ 0`, where `leading` is the exponent of the
first digit. -/
def positionalText (marked : Bool) (digits : List Char) (leading : Int) : List Char :=
  if leading < 0 then
    ['0', '.'] ++ List.replicate ((-leading).toNat - 1) '0' ++ digits
  else
    let whole := leading.toNat + 1
    if digits.length ≤ whole then
      digits ++ List.replicate (whole - digits.length) '0' ++ (if marked then ['.', '0'] else [])
    else digits.take whole ++ '.' :: digits.drop whole

/-- One digit, the others after a point, and the power of ten with its sign. -/
def scientificText (digits : List Char) (leading : Int) : List Char :=
  digits.take 1 ++ (if digits.length ≤ 1 then [] else '.' :: digits.drop 1) ++
    ['e', if leading < 0 then '-' else '+'] ++ Nat.toDigits 10 leading.natAbs

/-- Whether a number with this leading exponent is written positionally. -/
def isPositional (layout : Layout) (leading : Int) : Bool :=
  match layout.positional with
  | none => true
  | some (least, greatest) => least ≤ leading && leading ≤ greatest

/-- The text of a finite magnitude. -/
def magnitudeText (layout : Layout) (magnitude : Nat) : List Char :=
  if magnitude = 0 then positionalText layout.marked ['0'] 0
  else
    let decimal := Decimal.shortest layout.tie magnitude
    let digits := Nat.toDigits 10 decimal.digits
    let leading := decimal.exponent + digits.length - 1
    let significant := (digits.reverse.dropWhile (· == '0')).reverse
    if layout.isPositional leading then positionalText layout.marked significant leading
    else scientificText significant leading

/-- The text of a double: its sign and its magnitude, `inf` for infinity, and `NaN` without a
sign for every not-a-number. -/
def text (layout : Layout) (x : Double) : List Char :=
  if x.isNaN then ['N', 'a', 'N']
  else
    (if x.negative then ['-'] else []) ++
      if x.isInfinite then ['i', 'n', 'f'] else layout.magnitudeText x.magnitude

end Layout

end JsonTemplate
