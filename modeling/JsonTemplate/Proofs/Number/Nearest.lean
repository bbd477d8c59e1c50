import JsonTemplate.Number.Double
import Mathlib.Tactic.Ring

/-!
# The nearest magnitude

Rounding to the nearest magnitude depends on the quotient alone and not on the fraction that it
is given as. It takes the units of a finite magnitude to that magnitude, quotients that are too
large to infinity and those below half a unit to zero. Integers of 64 bits are not too large,
and neither are their quotients.
-/

namespace JsonTemplate.Double

/-- Rounding to a whole number depends on the quotient alone. -/
theorem roundQuotient_mul_right (numerator denominator : Nat) {factor : Nat} (h : 0 < factor) :
    roundQuotient (numerator * factor) (denominator * factor) =
      roundQuotient numerator denominator := by
  have hleft (remainder : Nat) :
      2 * (remainder * factor) < denominator * factor ↔ 2 * remainder < denominator := by
    rw [← Nat.mul_assoc, Nat.mul_lt_mul_right h]
  have hright (remainder : Nat) :
      denominator * factor < 2 * (remainder * factor) ↔ denominator < 2 * remainder := by
    rw [← Nat.mul_assoc, Nat.mul_lt_mul_right h]
  simp only [roundQuotient, Nat.mul_div_mul_right _ _ h, Nat.mul_mod_mul_right, hleft, hright]

/-- Rounding to the nearest magnitude depends on the quotient alone. -/
theorem nearest_mul_right (numerator denominator : Nat) {factor : Nat} (h : 0 < factor) :
    nearest (numerator * factor) (denominator * factor) = nearest numerator denominator := by
  simp only [nearest, Nat.mul_div_mul_right _ _ h, Nat.mul_right_comm denominator factor,
    roundQuotient_mul_right _ _ h]

/-- Equal quotients are rounded to the same magnitude. -/
theorem nearest_congr {numerator denominator numerator' denominator' : Nat}
    (hd : 0 < denominator) (hd' : 0 < denominator')
    (h : numerator * denominator' = numerator' * denominator) :
    nearest numerator denominator = nearest numerator' denominator' := by
  rw [← nearest_mul_right numerator denominator hd', h, Nat.mul_comm denominator,
    nearest_mul_right numerator' denominator' hd]

/-- Below half a unit everything is rounded to zero. -/
theorem nearest_eq_zero {numerator denominator : Nat} (h : 2 * numerator < denominator) :
    nearest numerator denominator = 0 := by
  have hquotient : numerator / denominator = 0 := Nat.div_eq_of_lt (by omega)
  have hremainder : numerator % denominator = numerator := Nat.mod_eq_of_lt (by omega)
  simp only [nearest, hquotient, Nat.log2_zero, Nat.zero_sub, Nat.pow_zero, Nat.mul_one,
    roundQuotient, hremainder, if_pos h, Nat.zero_mul, Nat.zero_add, Nat.zero_min]

/-- Rounding never goes below the whole part of a quotient. -/
theorem div_le_roundQuotient (numerator denominator : Nat) :
    numerator / denominator ≤ roundQuotient numerator denominator := by
  simp only [roundQuotient]
  split
  · exact Nat.le_refl _
  split
  · exact Nat.le_succ _
  · exact Nat.le_add_right _ _

/-- Rounding goes at most one beyond the whole part of a quotient. -/
theorem roundQuotient_le (numerator denominator : Nat) :
    roundQuotient numerator denominator ≤ numerator / denominator + 1 := by
  simp only [roundQuotient]
  split
  · exact Nat.le_succ _
  split
  · exact Nat.le_refl _
  · have hlast := Nat.mod_lt (numerator / denominator) Nat.zero_lt_two
    omega

/-- The steps that a quotient is rounded to take no more than one bit more than its own steps. -/
theorem roundQuotient_le_two_pow {numerator denominator quotient doublings : Nat}
    (hquotient : numerator / denominator = quotient) (h : doublings ≤ quotient.log2) :
    roundQuotient numerator (denominator * 2 ^ doublings) ≤
      2 ^ (quotient.log2 + 1 - doublings) := by
  refine Nat.le_trans (roundQuotient_le _ _) ?_
  rw [← Nat.div_div_eq_div_mul, hquotient, Nat.add_one_le_iff,
    Nat.div_lt_iff_lt_mul (Nat.two_pow_pos _), ← Nat.pow_add,
    Nat.sub_add_cancel (Nat.le_succ_of_le h)]
  exact Nat.lt_log2_self

/-- The steps that a quotient is rounded to take as many bits as its own steps. -/
theorem two_pow_le_roundQuotient {numerator denominator quotient doublings : Nat}
    (hquotient : numerator / denominator = quotient) (hne : quotient ≠ 0)
    (h : doublings ≤ quotient.log2) :
    2 ^ (quotient.log2 - doublings) ≤ roundQuotient numerator (denominator * 2 ^ doublings) := by
  refine Nat.le_trans ?_ (div_le_roundQuotient _ _)
  rw [← Nat.div_div_eq_div_mul, hquotient, Nat.le_div_iff_mul_le (Nat.two_pow_pos _),
    ← Nat.pow_add, Nat.sub_add_cancel h]
  exact Nat.log2_self_le hne

/-- Below `2 ^ 2097` units nothing is rounded to infinity. -/
theorem nearest_lt_infinite {numerator denominator exponent : Nat} (hexponent : exponent ≤ 2097)
    (h : numerator / denominator < 2 ^ exponent) :
    nearest numerator denominator < infiniteMagnitude := by
  generalize hq : numerator / denominator = quotient at h
  have hdoublings : quotient.log2 - 52 ≤ 2044 := by
    by_cases hzero : quotient = 0
    · rw [hzero, Nat.log2_zero]
      exact Nat.zero_le _
    · have hlog := (Nat.log2_lt hzero).mpr h
      omega
  have hsteps : roundQuotient numerator (denominator * 2 ^ (quotient.log2 - 52)) ≤ 2 ^ 53 :=
    Nat.le_trans (roundQuotient_le_two_pow hq (Nat.sub_le _ _))
      (Nat.pow_le_pow_right Nat.zero_lt_two (by omega))
  refine Nat.lt_of_le_of_lt (Nat.min_le_left _ _) ?_
  rw [hq]
  calc (quotient.log2 - 52) * 2 ^ 52 + roundQuotient numerator _
      ≤ 2044 * 2 ^ 52 + 2 ^ 53 := Nat.add_le_add (Nat.mul_le_mul_right _ hdoublings) hsteps
    _ < infiniteMagnitude := by decide

/-- Whole numbers of 64 bits and their units are not rounded to infinity. -/
theorem nearest_whole_lt_infinite {n exponent : Nat} (hexponent : exponent ≤ 1074)
    (h : n < 2 ^ 64) : nearest (n * 2 ^ exponent) 1 < infiniteMagnitude := by
  refine nearest_lt_infinite (show 64 + exponent ≤ 2097 by omega) ?_
  rw [Nat.div_one, Nat.pow_add]
  exact Nat.mul_lt_mul_of_pos_right h (Nat.two_pow_pos _)

/-- The size of an integer takes 64 bits. -/
theorem natAbs_toInt_lt (n : Int64) : n.toInt.natAbs < 2 ^ 64 := by
  have hle := n.le_toInt
  have hlt := n.toInt_lt
  omega

/-- The double nearest to a whole number is that of its units. -/
theorem magnitude_ofInt (n : Int) : (ofInt n).magnitude = nearest (n.natAbs * 2 ^ 1074) 1 := by
  rw [ofInt, ofQuotient, unitsInOne]

/-- The double nearest to a 64-bit integer is finite. -/
theorem isFinite_ofInt (n : Int64) : (ofInt n.toInt).isFinite := by
  rw [isFinite, decide_eq_true_iff, magnitude_ofInt]
  exact @nearest_whole_lt_infinite _ 1074 Nat.le.refl (natAbs_toInt_lt n)

/-- From `2 ^ 2098` units on everything is rounded to infinity. -/
theorem nearest_eq_infinite {numerator denominator exponent : Nat} (hd : 0 < denominator)
    (hexponent : 2098 ≤ exponent) (h : denominator * 2 ^ exponent ≤ numerator) :
    nearest numerator denominator = infiniteMagnitude := by
  have hquotient : 2 ^ exponent ≤ numerator / denominator := by
    rw [Nat.le_div_iff_mul_le hd, Nat.mul_comm]
    exact h
  generalize hq : numerator / denominator = quotient at hquotient
  have hne : quotient ≠ 0 := Nat.ne_of_gt (Nat.lt_of_lt_of_le (Nat.two_pow_pos _) hquotient)
  have hlog : exponent ≤ quotient.log2 := (Nat.le_log2 hne).mpr hquotient
  have hsteps : 2 ^ 52 ≤ roundQuotient numerator (denominator * 2 ^ (quotient.log2 - 52)) :=
    Nat.le_trans (Nat.pow_le_pow_right Nat.zero_lt_two (by omega))
      (two_pow_le_roundQuotient hq hne (Nat.sub_le _ _))
  have hdoublings : 2046 ≤ quotient.log2 - 52 := by omega
  apply Nat.min_eq_right
  rw [hq]
  calc infiniteMagnitude = 2046 * 2 ^ 52 + 2 ^ 52 := by decide
    _ ≤ (quotient.log2 - 52) * 2 ^ 52 + roundQuotient numerator _ :=
      Nat.add_le_add (Nat.mul_le_mul_right _ hdoublings) hsteps

/-- A whole quotient is not rounded. -/
theorem roundQuotient_mul_self (n : Nat) {denominator : Nat} (h : 0 < denominator) :
    roundQuotient (n * denominator) denominator = n := by
  simp only [roundQuotient, Nat.mul_mod_left, Nat.mul_zero, if_pos h, Nat.mul_div_cancel _ h]

/-- Below `2 ^ 53` units no doubling is taken, and after that as many as leave that bound. -/
theorem log2_mul_pow {steps doublings : Nat} (hlt : steps < 2 ^ 53)
    (hle : 0 < doublings → 2 ^ 52 ≤ steps) : (steps * 2 ^ doublings).log2 - 52 = doublings := by
  cases doublings with
  | zero =>
    rw [Nat.pow_zero, Nat.mul_one]
    by_cases hzero : steps = 0
    · rw [hzero, Nat.log2_zero]
    · have hlog := (Nat.log2_lt hzero).mpr hlt
      omega
  | succ doublings =>
    have hsteps := hle (Nat.succ_pos doublings)
    have hlog : (steps * 2 ^ (doublings + 1)).log2 = 52 + (doublings + 1) := by
      rw [Nat.log2_eq_iff]
      · constructor
        · rw [Nat.pow_add]
          exact Nat.mul_le_mul_right _ hsteps
        · rw [Nat.add_right_comm, Nat.pow_add 2 53]
          exact Nat.mul_lt_mul_of_pos_right hlt (Nat.two_pow_pos _)
      · exact Nat.ne_of_gt (Nat.mul_pos (by omega) (Nat.two_pow_pos _))
    omega

/-- The units of a magnitude that is given by its steps and their doublings. -/
theorem units_steps {steps doublings : Nat} (hle : steps ≤ 2 ^ 53)
    (hge : 0 < doublings → 2 ^ 52 ≤ steps) :
    units (doublings * 2 ^ 52 + steps) = steps * 2 ^ doublings := by
  unfold units
  dsimp only
  rcases Nat.lt_or_eq_of_le hle with hlt | rfl
  · have hdoublings : (doublings * 2 ^ 52 + steps) / 2 ^ 52 - 1 = doublings := by omega
    rw [hdoublings, Nat.add_sub_cancel_left]
  · have hdoublings : (doublings * 2 ^ 52 + 2 ^ 53) / 2 ^ 52 - 1 = doublings + 1 := by omega
    have hsteps : doublings * 2 ^ 52 + 2 ^ 53 - (doublings + 1) * 2 ^ 52 = 2 ^ 52 := by omega
    rw [hdoublings, hsteps, ← Nat.pow_add, ← Nat.pow_add]
    exact congrArg (2 ^ ·) (by omega)

/-- The units of a finite magnitude are rounded to it. -/
theorem nearest_units {magnitude : Nat} (h : magnitude < infiniteMagnitude) :
    nearest (units magnitude) 1 = magnitude := by
  generalize hdoublings : magnitude / 2 ^ 52 - 1 = doublings
  obtain ⟨steps, hsteps⟩ : ∃ steps, magnitude = doublings * 2 ^ 52 + steps :=
    ⟨magnitude - doublings * 2 ^ 52, by omega⟩
  have hunits : units magnitude = steps * 2 ^ doublings := by
    rw [hsteps]
    exact units_steps (by omega) (by omega)
  have hlog : (units magnitude).log2 - 52 = doublings := by
    rw [hunits]
    exact log2_mul_pow (by omega) (by omega)
  rw [nearest, Nat.div_one, hlog, Nat.one_mul, hunits,
    roundQuotient_mul_self _ (Nat.two_pow_pos _), ← hsteps]
  exact Nat.min_eq_left (Nat.le_of_lt h)

/-- What is rounded to a finite magnitude keeps its steps and their doublings. -/
theorem units_nearest {n : Nat} (h : nearest n 1 < infiniteMagnitude) : units (nearest n 1) =
    roundQuotient n (1 * 2 ^ (n.log2 - 52)) * 2 ^ (n.log2 - 52) := by
  have hq := Nat.div_one n
  have hnearest : nearest n 1 =
      (n.log2 - 52) * 2 ^ 52 + roundQuotient n (1 * 2 ^ (n.log2 - 52)) := by
    unfold nearest at h ⊢
    dsimp only at h ⊢
    rw [hq] at h ⊢
    omega
  rw [hnearest]
  refine units_steps ?_ fun hpos => ?_
  · exact Nat.le_trans (roundQuotient_le_two_pow hq (Nat.sub_le _ _))
      (Nat.pow_le_pow_right Nat.zero_lt_two (by omega))
  · have hne : n ≠ 0 := by
      rintro rfl
      rw [Nat.log2_zero] at hpos
      exact Nat.not_lt_zero _ hpos
    exact Nat.le_trans (Nat.pow_le_pow_right Nat.zero_lt_two (by omega))
      (two_pow_le_roundQuotient hq hne (Nat.sub_le _ _))

/-- Rounding does not go beyond a power of two. -/
theorem units_nearest_le {n exponent : Nat} (h : nearest n 1 < infiniteMagnitude)
    (hn : n < 2 ^ exponent) : units (nearest n 1) ≤ 2 ^ exponent := by
  by_cases hzero : n = 0
  · rw [hzero, nearest_eq_zero (by decide)]
    exact Nat.zero_le _
  · have hlog := (Nat.log2_lt hzero).mpr hn
    have hsteps := roundQuotient_le_two_pow (Nat.div_one n) (Nat.sub_le n.log2 52)
    rw [units_nearest h]
    calc _ ≤ 2 ^ (n.log2 + 1 - (n.log2 - 52)) * 2 ^ (n.log2 - 52) := Nat.mul_le_mul_right _ hsteps
      _ = 2 ^ (n.log2 + 1) := by rw [← Nat.pow_add, Nat.sub_add_cancel (by omega)]
      _ ≤ 2 ^ exponent := Nat.pow_le_pow_right Nat.zero_lt_two hlog

/-- Rounding does not fall below a power of two. -/
theorem two_pow_le_units_nearest {n exponent : Nat} (h : nearest n 1 < infiniteMagnitude)
    (hn : 2 ^ exponent ≤ n) : 2 ^ exponent ≤ units (nearest n 1) := by
  have hne : n ≠ 0 := Nat.ne_of_gt (Nat.lt_of_lt_of_le (Nat.two_pow_pos _) hn)
  have hlog := (Nat.le_log2 hne).mpr hn
  have hsteps := two_pow_le_roundQuotient (Nat.div_one n) hne (Nat.sub_le n.log2 52)
  rw [units_nearest h]
  calc 2 ^ exponent ≤ 2 ^ n.log2 := Nat.pow_le_pow_right Nat.zero_lt_two hlog
    _ = 2 ^ (n.log2 - (n.log2 - 52)) * 2 ^ (n.log2 - 52) := by
        rw [← Nat.pow_add, Nat.sub_add_cancel (Nat.sub_le _ _)]
    _ ≤ _ := Nat.mul_le_mul_right _ hsteps

/-- Dividing finite doubles rounds the quotient of their units. -/
theorem div_eq_ofQuotient {x y : Double} (hx : x.isFinite) (hy : y.isFinite) (hne : ¬y.isZero) :
    x.div y = ofQuotient (x.negative != y.negative) (units x.magnitude * unitsInOne)
      (units y.magnitude) := by
  have hinfinite {z : Double} (hz : z.isFinite) : ¬z.isNaN ∧ ¬z.isInfinite := by
    simp only [isFinite, isNaN, isInfinite, decide_eq_true_eq, beq_iff_eq] at hz ⊢
    omega
  simp only [div, hinfinite hx, hinfinite hy, hne, Bool.or_self, Bool.false_eq_true, if_false]

/-- There is a unit in one. -/
theorem unitsInOne_pos : 0 < unitsInOne := by
  unfold unitsInOne
  exact Nat.two_pow_pos 1074

/-- The quotient is finite if the dividend has few enough units, and the divisor is not below
one. -/
theorem isFinite_div {x y : Double} {exponent : Nat} (hx : x.isFinite) (hy : y.isFinite)
    (hexponent : exponent < 2097) (hover : units x.magnitude ≤ 2 ^ exponent)
    (hunder : unitsInOne ≤ units y.magnitude) : (x.div y).isFinite := by
  have hne : ¬y.isZero := by
    intro hzero
    rw [beq_iff_eq.mp hzero, show units 0 = 0 by decide] at hunder
    exact Nat.not_lt_of_le hunder unitsInOne_pos
  have hquotient : units x.magnitude * unitsInOne / units y.magnitude ≤ units x.magnitude := by
    refine Nat.div_le_of_le_mul ?_
    rw [Nat.mul_comm (units x.magnitude)]
    exact Nat.mul_le_mul_right _ hunder
  rw [div_eq_ofQuotient hx hy hne, isFinite, decide_eq_true_iff]
  refine nearest_lt_infinite (Nat.succ_le_of_lt hexponent) (Nat.lt_of_le_of_lt hquotient ?_)
  exact Nat.lt_of_le_of_lt hover (Nat.pow_lt_pow_right Nat.one_lt_two (Nat.lt_succ_self exponent))

/-- Whole numbers of 64 bits and their units are rounded to few units. -/
theorem exists_units_nearest_whole_le {n exponent : Nat} (hexponent : exponent ≤ 1074)
    (h : n < 2 ^ 64) : ∃ bits < 2097, units (nearest (n * 2 ^ exponent) 1) ≤ 2 ^ bits := by
  refine ⟨64 + exponent, by omega, ?_⟩
  refine units_nearest_le (nearest_whole_lt_infinite hexponent h) ?_
  rw [Nat.pow_add]
  exact Nat.mul_lt_mul_of_pos_right h (Nat.two_pow_pos _)

/-- The quotient of the doubles of two 64-bit integers is finite. -/
theorem isFinite_div_ofInt (a : Int64) {b : Int64} (hb : b.toInt ≠ 0) :
    ((ofInt a.toInt).div (ofInt b.toInt)).isFinite := by
  obtain ⟨bits, hbits, hover⟩ :=
    @exists_units_nearest_whole_le _ 1074 Nat.le.refl (natAbs_toInt_lt a)
  refine isFinite_div (isFinite_ofInt a) (isFinite_ofInt b) hbits ?_ ?_
  · rwa [magnitude_ofInt]
  · have hfinite := decide_eq_true_iff.mp (isFinite_ofInt b)
    rw [magnitude_ofInt] at hfinite ⊢
    rw [unitsInOne]
    exact @two_pow_le_units_nearest _ 1074 hfinite
      (Nat.le_mul_of_pos_left _ (Int.natAbs_pos.mpr hb))

end JsonTemplate.Double
