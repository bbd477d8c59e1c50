import JsonTemplate.Number.Decimal
import JsonTemplate.Proofs.Number.Nearest

/-!
# Decimals and the magnitudes nearest to them

The magnitude of a decimal depends on the number alone, however many zeros its digits end in.
The decimals that are decided by their size alone are no exception: they get the magnitude that
rounding would give them. The shortest decimal of a magnitude has that magnitude, and its
leading digit stands at a power of ten of three digits.
-/

namespace JsonTemplate.Decimal

open Double (nearest unitsInOne)

/-- The units of a decimal times its denominator. -/
def numerator (d : Decimal) : Nat := d.digits * 10 ^ d.exponent.toNat * unitsInOne

/-- The denominator of a decimal as a quotient of units. -/
def denominator (d : Decimal) : Nat := 10 ^ (-d.exponent).toNat

/-- The denominator of a decimal is positive. -/
theorem denominator_pos (d : Decimal) : 0 < d.denominator := Nat.pow_pos (by decide)

/-- The power of ten of the leading digit. -/
def leading (d : Decimal) : Int := d.exponent + digitCount d.digits - 1

/-- Every number has a digit. -/
theorem digitCount_pos (n : Nat) : 0 < digitCount n := Nat.length_toDigits_pos

/-- A number is less than the power of ten with as many zeros as it has digits. -/
theorem lt_pow_digitCount (n : Nat) : n < 10 ^ digitCount n :=
  (Nat.length_toDigits_le_iff (by decide) (digitCount_pos n)).mp (Nat.le_refl _)

/-- A number is at least the power of ten with as many digits. -/
theorem pow_le_of_digitCount {n : Nat} (h : n ≠ 0) : 10 ^ (digitCount n - 1) ≤ n := by
  by_cases hone : digitCount n = 1
  · rw [hone]
    exact Nat.pos_of_ne_zero h
  · have hcount := digitCount_pos n
    apply Nat.le_of_not_lt
    intro hlt
    have hle := (Nat.length_toDigits_le_iff (by decide) (by omega)).mpr hlt
    rw [← digitCount] at hle
    omega

/-- A power of two is no greater than a power of ten with a third of its exponent. -/
theorem two_pow_le_ten_pow {twos tens : Nat} (h : twos ≤ 3 * tens) : 2 ^ twos ≤ 10 ^ tens := by
  calc 2 ^ twos ≤ 2 ^ (3 * tens) := Nat.pow_le_pow_right (by decide) h
    _ = 8 ^ tens := Nat.pow_mul 2 3 tens
    _ ≤ 10 ^ tens := Nat.pow_le_pow_left (by decide) tens

/-- A decimal whose leading digit stands far above the range is rounded to infinity. -/
theorem nearest_of_large {d : Decimal} (h : d.digits ≠ 0) (hlarge : 400 < d.leading) :
    nearest d.numerator d.denominator = infiniteMagnitude := by
  have hcount := digitCount_pos d.digits
  obtain ⟨size, hsize⟩ := Int.eq_ofNat_of_zero_le (a := d.leading) (by omega)
  have hexponents : (-d.exponent).toNat + size = digitCount d.digits - 1 + d.exponent.toNat := by
    rw [leading] at hsize
    omega
  have hexponent : 2098 ≤ 3 * size + 1074 := by omega
  apply Double.nearest_eq_infinite d.denominator_pos hexponent
  calc d.denominator * 2 ^ (3 * size + 1074)
      = 10 ^ (-d.exponent).toNat * 2 ^ (3 * size) * unitsInOne := by
        rw [denominator, Nat.pow_add, Nat.mul_assoc, unitsInOne]
    _ ≤ 10 ^ (-d.exponent).toNat * 10 ^ size * unitsInOne :=
        Nat.mul_le_mul_right _ (Nat.mul_le_mul_left _ (two_pow_le_ten_pow (Nat.le_refl _)))
    _ = 10 ^ (digitCount d.digits - 1) * 10 ^ d.exponent.toNat * unitsInOne := by
        rw [← Nat.pow_add, hexponents, Nat.pow_add]
    _ ≤ d.numerator := Nat.mul_le_mul_right _ (Nat.mul_le_mul_right _ (pow_le_of_digitCount h))

/-- Twice a power of two is no greater than a power of ten with more than a third of its
exponent. -/
theorem two_mul_le_ten_pow {units twos tens : Nat} (hunits : units = 2 ^ twos)
    (h : twos < 3 * tens) : 2 * units ≤ 10 ^ tens := by
  rw [hunits, ← Nat.pow_succ']
  exact two_pow_le_ten_pow h

/-- A decimal whose leading digit stands far below the range is rounded to zero. -/
theorem nearest_of_small {d : Decimal} (hsmall : digitCount d.digits + d.exponent < -400) :
    nearest d.numerator d.denominator = 0 := by
  apply Double.nearest_eq_zero
  have hexponent : d.exponent.toNat = 0 := by omega
  obtain ⟨tens, htens⟩ : ∃ tens, (-d.exponent).toNat = digitCount d.digits + tens :=
    ⟨(-d.exponent).toNat - digitCount d.digits, by omega⟩
  have hbound : 2 * unitsInOne ≤ 10 ^ tens := two_mul_le_ten_pow Double.unitsInOne_eq (by omega)
  calc 2 * d.numerator = d.digits * (2 * unitsInOne) := by
        rw [numerator, hexponent, Nat.pow_zero, Nat.mul_one, Nat.mul_left_comm]
    _ ≤ d.digits * 10 ^ tens := Nat.mul_le_mul_left _ hbound
    _ < 10 ^ digitCount d.digits * 10 ^ tens :=
        Nat.mul_lt_mul_of_pos_right (lt_pow_digitCount d.digits) (Nat.pow_pos (by decide))
    _ = d.denominator := by rw [denominator, htens, Nat.pow_add]

/-- The magnitude of a decimal is what its quotient of units is rounded to, also where the size
alone decides. -/
theorem magnitude_eq_nearest {d : Decimal} (h : d.digits ≠ 0) :
    d.magnitude = nearest d.numerator d.denominator := by
  have hcount := digitCount_pos d.digits
  rw [magnitude, if_neg h]
  split
  · rw [nearest_of_large h (by rw [leading]; omega)]
  split
  · rw [nearest_of_small ‹_›]
  split
  · have hzero : (-d.exponent).toNat = 0 := by omega
    rw [denominator, hzero, Nat.pow_zero, numerator]
  · have hzero : d.exponent.toNat = 0 := by omega
    rw [denominator, numerator, hzero, Nat.pow_zero, Nat.mul_one]

/-- A decimal without other digits than zero has no magnitude. -/
theorem magnitude_of_digits_eq_zero {d : Decimal} (h : d.digits = 0) : d.magnitude = 0 := by
  rw [magnitude, if_pos h]

/-- Zeros at the end of the digits count for the power of ten. -/
theorem magnitude_mul_pow (digits zeros : Nat) (exponent : Int) :
    magnitude ⟨digits * 10 ^ zeros, exponent⟩ = magnitude ⟨digits, exponent + zeros⟩ := by
  by_cases hzero : digits = 0
  · rw [hzero, Nat.zero_mul, magnitude_of_digits_eq_zero rfl, magnitude_of_digits_eq_zero rfl]
  · have hproduct : digits * 10 ^ zeros ≠ 0 :=
      Nat.mul_ne_zero hzero (Nat.ne_of_gt (Nat.pow_pos (by decide)))
    have hleft : magnitude ⟨digits * 10 ^ zeros, exponent⟩ = _ := magnitude_eq_nearest hproduct
    have hright : magnitude ⟨digits, exponent + zeros⟩ = _ := magnitude_eq_nearest hzero
    rw [hleft, hright]
    apply Double.nearest_congr (denominator_pos _) (denominator_pos _)
    have hexponents : zeros + exponent.toNat + (-(exponent + zeros)).toNat =
        (exponent + zeros).toNat + (-exponent).toNat := by omega
    calc digits * 10 ^ zeros * 10 ^ exponent.toNat * unitsInOne *
          10 ^ (-(exponent + zeros)).toNat
        = digits * unitsInOne * 10 ^ (zeros + exponent.toNat + (-(exponent + zeros)).toNat) := by
          rw [Nat.pow_add, Nat.pow_add]
          ring
      _ = digits * 10 ^ (exponent + zeros).toNat * unitsInOne * 10 ^ (-exponent).toNat := by
          rw [hexponents, Nat.pow_add]
          ring

/-- What is found on a grid reads back. -/
theorem magnitude_of_onGrid? {tie : Tie} {magnitude : Nat} {exponent : Int} {d : Decimal}
    (h : onGrid? tie magnitude exponent = some d) : d.magnitude = magnitude := by
  unfold onGrid? at h
  dsimp only at h
  split at h
  · cases h
  · rename_i hbelow _
    cases h
    exact beq_iff_eq.mp hbelow
  · rename_i _ habove
    cases h
    exact beq_iff_eq.mp habove
  · rename_i hbelow habove
    rw [beq_iff_eq] at hbelow habove
    split at h
    · cases h
      exact hbelow
    split at h
    · cases h
      exact habove
    split at h
    · split at h
      · cases h
        exact hbelow
      · cases h
        exact habove
    · cases h
      exact habove

/-- A positive magnitude has units. -/
theorem units_pos {magnitude : Nat} (h : 0 < magnitude) : 0 < Double.units magnitude := by
  rw [Double.units]
  exact Nat.mul_pos (by omega) (Nat.two_pow_pos _)

/-- Some units times a power of five are some units. -/
theorem mul_five_pow_pos {units : Nat} (h : 0 < units) (places : Nat) : 0 < units * 5 ^ places :=
  Nat.mul_pos h (Nat.pow_pos (by decide))

/-- A number of units of `2 ^ -places` is one of units of `10 ^ -places`. -/
theorem nearest_mul_five_pow {one places : Nat} (hone : one = 2 ^ places) (units : Nat) :
    nearest (units * 5 ^ places * one) (10 ^ places) = nearest units 1 := by
  have hpow : 5 ^ places * one = 10 ^ places := by rw [hone, ← Nat.mul_pow]
  apply Double.nearest_congr (Nat.pow_pos (by decide)) Nat.one_pos
  rw [Nat.mul_one, Nat.mul_assoc, hpow]

/-- All digits of a magnitude read back. -/
theorem magnitude_exact {magnitude : Nat} (hpos : 0 < magnitude)
    (h : magnitude < infiniteMagnitude) : (exact magnitude).magnitude = magnitude := by
  have hdigits : (exact magnitude).digits ≠ 0 :=
    Nat.ne_of_gt (mul_five_pow_pos (units_pos hpos) 1074)
  have hnumerator : (exact magnitude).numerator =
      Double.units magnitude * 5 ^ 1074 * unitsInOne := congrArg (· * unitsInOne) (Nat.mul_one _)
  have hplaces : (-(exact magnitude).exponent).toNat = 1074 := rfl
  rw [magnitude_eq_nearest hdigits, hnumerator, denominator, hplaces,
    nearest_mul_five_pow Double.unitsInOne_eq]
  exact Double.nearest_units h

/-- The shortest decimal of a finite magnitude reads back. -/
theorem magnitude_shortest (tie : Tie) {magnitude : Nat} (hpos : 0 < magnitude)
    (h : magnitude < infiniteMagnitude) : (shortest tie magnitude).magnitude = magnitude := by
  unfold shortest
  dsimp only
  cases hfound : (List.range 17).findSome? fun (more : Nat) =>
      onGrid? tie magnitude (leadingExponent magnitude - more) with
  | none => exact magnitude_exact hpos h
  | some d =>
    obtain ⟨more, -, hgrid⟩ := List.exists_of_findSome?_eq_some hfound
    exact magnitude_of_onGrid? hgrid

/-- A decimal with a magnitude has a digit other than zero. -/
theorem digits_ne_zero {d : Decimal} (h : 0 < d.magnitude) : d.digits ≠ 0 := by
  intro hzero
  rw [magnitude_of_digits_eq_zero hzero] at h
  exact Nat.lt_irrefl 0 h

/-- The leading digit of a decimal in range stands at a power of ten of at most three digits. -/
theorem leading_bounds {d : Decimal} (hpos : 0 < d.magnitude)
    (h : d.magnitude < infiniteMagnitude) : -401 ≤ d.leading ∧ d.leading ≤ 400 := by
  have hdigits := digits_ne_zero hpos
  rw [magnitude_eq_nearest hdigits] at hpos h
  constructor
  · apply Int.not_lt.mp
    intro hsmall
    rw [nearest_of_small (by rw [leading] at hsmall; omega)] at hpos
    exact Nat.lt_irrefl 0 hpos
  · apply Int.not_lt.mp
    intro hlarge
    rw [nearest_of_large hdigits hlarge] at h
    exact Nat.lt_irrefl _ h

end JsonTemplate.Decimal
