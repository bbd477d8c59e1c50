import Mathlib.Data.List.Basic
import JsonTemplate.Number.Layout
import JsonTemplate.Proofs.Number.Decimals
import JsonTemplate.Proofs.Scanner.TokenGrammar

/-!
# The texts of doubles read back

The JSON text of a finite magnitude is a numeral in the form of JSON numbers, and that numeral
spells the magnitude. Where the digits of the shortest decimal end in zeros the text leaves
them out, and where the point stands inside or before the digits it moves the power of ten;
neither changes the number.
-/

namespace JsonTemplate

/-- The digits of a number are digits. -/
theorem allDigits_toDigits (n : Nat) : AllDigits (Nat.toDigits 10 n) :=
  fun _ => Nat.isDigit_of_mem_toDigits (by decide) (by decide)

/-- Digits followed by digits are digits. -/
theorem allDigits_append {left right : List Char} (hl : AllDigits left) (hr : AllDigits right) :
    AllDigits (left ++ right) := by
  intro c hc
  exact (List.mem_append.mp hc).elim (hl c) (hr c)

/-- Zeros are digits. -/
theorem allDigits_zeros (zeros : Nat) : AllDigits (List.replicate zeros '0') := by
  intro c hc
  rw [List.eq_of_mem_replicate hc]
  decide

/-- A part of some digits consists of digits. -/
theorem AllDigits.sublist {digits part : List Char} (h : AllDigits digits)
    (hpart : List.Sublist part digits) : AllDigits part :=
  fun c hc => h c (hpart.subset hc)

/-- The digits of a number read back. -/
theorem readDigits_toDigits (n : Nat) : readDigits (Nat.toDigits 10 n) = n :=
  Nat.ofDigitChars_ten_toDigits

/-- A zero at the end of digits makes the number ten times as great. -/
theorem readDigits_append_zeros (digits : List Char) (zeros : Nat) :
    readDigits (digits ++ List.replicate zeros '0') = readDigits digits * 10 ^ zeros := by
  rw [readDigits, Nat.ofDigitChars_append, Nat.ofDigitChars_replicate_zero, readDigits,
    Nat.mul_comm]

/-- Zeros in front of digits do not count. -/
theorem readDigits_zeros_append (zeros : Nat) (digits : List Char) :
    readDigits (List.replicate zeros '0' ++ digits) = readDigits digits := by
  rw [readDigits, Nat.ofDigitChars_append, Nat.ofDigitChars_replicate_zero, Nat.mul_zero,
    readDigits]

/-- The digit of a positive number below ten is not zero. -/
theorem digitChar_ne_zero {n : Nat} (hpos : 0 < n) (hlt : n < 10) : Nat.digitChar n ≠ '0' := by
  have hall : ∀ digit : Fin 10, 0 < digit.val → Nat.digitChar digit ≠ '0' := by decide
  exact hall ⟨n, hlt⟩ hpos

/-- A positive number is written without a leading zero. -/
theorem head?_toDigits_ne {n : Nat} (h : 0 < n) : (Nat.toDigits 10 n).head? ≠ some '0' := by
  induction n using Nat.strongRecOn with
  | ind n ih =>
    by_cases hlt : n < 10
    · rw [Nat.toDigits_of_lt_base hlt, List.head?_cons]
      exact fun heq => digitChar_ne_zero h hlt (Option.some.inj heq)
    · rw [Nat.toDigits_of_base_le (by decide) (by omega),
        List.head?_append_of_ne_nil _ Nat.toDigits_ne_nil]
      exact ih (n / 10) (by omega) (by omega)

/-- Digits of which the first is not zero. -/
structure SignificantDigits (digits : List Char) : Prop where
  all_digits : AllDigits digits
  ne_nil : digits ≠ []
  head_ne : digits.head? ≠ some '0'

/-- A positive number starts with a digit other than zero. -/
theorem significantDigits_toDigits {n : Nat} (h : 0 < n) :
    SignificantDigits (Nat.toDigits 10 n) :=
  ⟨allDigits_toDigits n, Nat.toDigits_ne_nil, head?_toDigits_ne h⟩

/-- Digits without the zeros at their end. -/
def withoutZeros (digits : List Char) : List Char :=
  (digits.reverse.dropWhile (· == '0')).reverse

/-- Digits are those before their last zeros, and then zeros. -/
theorem exists_zeros (digits : List Char) :
    ∃ zeros, digits = withoutZeros digits ++ List.replicate zeros '0' := by
  refine ⟨(digits.reverse.takeWhile (· == '0')).length, ?_⟩
  have hzeros : digits.reverse.takeWhile (· == '0') =
      List.replicate (digits.reverse.takeWhile (· == '0')).length '0' := by
    apply List.eq_replicate_of_mem
    intro c hc
    have hall := List.all_eq_true.mp (List.all_takeWhile (p := (· == '0')) (l := digits.reverse))
    exact beq_iff_eq.mp (hall c hc)
  calc digits = (digits.reverse.takeWhile (· == '0') ++
          digits.reverse.dropWhile (· == '0')).reverse := by
        rw [List.takeWhile_append_dropWhile, List.reverse_reverse]
    _ = _ := by
        rw [List.reverse_append, withoutZeros]
        congr 1
        rw [hzeros, List.reverse_replicate, List.length_replicate]

/-- Leaving out the last zeros leaves a part of the digits. -/
theorem sublist_withoutZeros (digits : List Char) : List.Sublist (withoutZeros digits) digits := by
  obtain ⟨zeros, hzeros⟩ := exists_zeros digits
  conv_rhs => rw [hzeros]
  exact List.sublist_append_left _ _

/-- Digits that start with another one than zero still do without their last zeros. -/
theorem SignificantDigits.withoutZeros {digits : List Char} (h : SignificantDigits digits) :
    SignificantDigits (withoutZeros digits) := by
  obtain ⟨zeros, hzeros⟩ := exists_zeros digits
  have hne : JsonTemplate.withoutZeros digits ≠ [] := by
    intro hnil
    rw [hnil, List.nil_append] at hzeros
    cases zeros with
    | zero => exact h.ne_nil hzeros
    | succ zeros => exact h.head_ne (by rw [hzeros]; rfl)
  refine ⟨h.all_digits.sublist (sublist_withoutZeros digits), hne, fun hhead => h.head_ne ?_⟩
  rw [hzeros, List.head?_append_of_ne_nil _ hne]
  exact hhead

/-- A decimal's number is spelled by its digits without the zeros at their end. -/
theorem Decimal.magnitude_withoutZeros (decimal : Decimal) :
    magnitude ⟨readDigits (JsonTemplate.withoutZeros (Nat.toDigits 10 decimal.digits)),
      decimal.leading + 1 - (JsonTemplate.withoutZeros (Nat.toDigits 10 decimal.digits)).length⟩ =
      decimal.magnitude := by
  obtain ⟨zeros, hzeros⟩ := exists_zeros (Nat.toDigits 10 decimal.digits)
  generalize JsonTemplate.withoutZeros (Nat.toDigits 10 decimal.digits) = significant at hzeros
  have hdigits : decimal.digits = readDigits significant * 10 ^ zeros := by
    rw [← readDigits_append_zeros, ← hzeros, readDigits_toDigits]
  have hcount : digitCount decimal.digits = significant.length + zeros := by
    rw [digitCount, hzeros, List.length_append, List.length_replicate]
  have hexponent : decimal.leading + 1 - significant.length = decimal.exponent + zeros := by
    rw [leading, hcount]
    omega
  rw [hexponent, ← magnitude_mul_pow, ← hdigits]

namespace Numeral

/-- A numeral in the form of JSON numbers, with a point or an exponent, that spells a
magnitude. -/
structure Denotes (numeral : Numeral) (magnitude : Nat) : Prop where
  wellFormed : numeral.WellFormed
  whole_eq : numeral.whole.head? = some '0' → numeral.whole = ['0']
  fraction_ne_nil : ∀ digits ∈ numeral.fraction, digits ≠ []
  isFloat : numeral.isFloat = true
  magnitude_eq : numeral.decimal.magnitude = magnitude

/-- The numeral of `positionalText`. -/
def positional (digits : List Char) (leading : Int) : Numeral :=
  if leading < 0 then
    ⟨['0'], some (List.replicate ((-leading).toNat - 1) '0' ++ digits), none⟩
  else
    let whole := leading.toNat + 1
    if digits.length ≤ whole then
      ⟨digits ++ List.replicate (whole - digits.length) '0', some ['0'], none⟩
    else ⟨digits.take whole, some (digits.drop whole), none⟩

/-- The numeral of `scientificText`. -/
def scientific (digits : List Char) (leading : Int) : Numeral where
  whole := digits.take 1
  fraction := if digits.length ≤ 1 then none else some (digits.drop 1)
  exponent := some
    ⟨'e', some (if leading < 0 then '-' else '+'), Nat.toDigits 10 leading.natAbs⟩

/-- A number laid out by position is the numeral with a whole part and a fraction. -/
theorem text_positional (digits : List Char) (leading : Int) :
    (positional digits leading).text = Layout.positionalText true digits leading := by
  unfold positional Layout.positionalText
  dsimp only
  split
  · simp [text, fractionText, exponentText]
  split
  · simp [text, fractionText, exponentText]
  · simp [text, fractionText, exponentText]

/-- A number laid out with a power of ten is the numeral with an exponent. -/
theorem text_scientific (digits : List Char) (leading : Int) :
    (scientific digits leading).text = Layout.scientificText digits leading := by
  unfold scientific Layout.scientificText
  split <;> simp [text, fractionText, exponentText, Exponent.text]

section

variable {digits : List Char} {leading : Int} {magnitude : Nat}

/-- Digits before the point and a point after them. -/
theorem denotes_of_noExponent {whole fraction : List Char} (hwhole : AllDigits whole)
    (hfraction : AllDigits fraction) (hwhole_ne : whole ≠ []) (hfraction_ne : fraction ≠ [])
    (hzero : whole.head? = some '0' → whole = ['0'])
    (h : Decimal.magnitude ⟨readDigits (whole ++ fraction), -fraction.length⟩ = magnitude) :
    Denotes ⟨whole, some fraction, none⟩ magnitude where
  wellFormed := ⟨hwhole, hwhole_ne, by rintro _ ⟨⟩; exact hfraction, nofun⟩
  whole_eq := hzero
  fraction_ne_nil := by rintro _ ⟨⟩; exact hfraction_ne
  isFloat := rfl
  magnitude_eq := by
    rw [← h, decimal]
    dsimp only [Option.map_none, Option.getD_none, Option.getD_some]
    rw [Int.zero_sub]

/-- Positional digits spell the number that their leading exponent gives them. -/
theorem denotes_positional (hdigits : SignificantDigits digits)
    (h : Decimal.magnitude ⟨readDigits digits, leading + 1 - digits.length⟩ = magnitude) :
    (positional digits leading).Denotes magnitude := by
  rw [positional]
  split
  · rename_i hneg
    refine denotes_of_noExponent (allDigits_zeros 1)
      (allDigits_append (allDigits_zeros _) hdigits.all_digits) (by simp)
      (by simp [hdigits.ne_nil]) (fun _ => rfl) ?_
    rw [← h, ← List.append_assoc, ← List.replicate_one, List.replicate_append_replicate,
      readDigits_zeros_append]
    congr 2
    rw [List.length_append, List.length_replicate]
    omega
  dsimp only
  split
  · rename_i hnonneg hshort
    refine denotes_of_noExponent
      (allDigits_append hdigits.all_digits (allDigits_zeros _)) (allDigits_zeros 1)
      (by simp [hdigits.ne_nil]) (by simp) ?_ ?_
    · rw [List.head?_append_of_ne_nil _ hdigits.ne_nil]
      exact fun hhead => absurd hhead hdigits.head_ne
    · rw [← h, ← List.replicate_one, List.append_assoc, List.replicate_append_replicate,
        readDigits_append_zeros, Decimal.magnitude_mul_pow]
      congr 2
      rw [List.length_replicate]
      omega
  · rename_i hnonneg hlong
    refine denotes_of_noExponent (hdigits.all_digits.sublist (List.take_sublist _ _))
      (hdigits.all_digits.sublist (List.drop_sublist _ _)) ?_ ?_ ?_ ?_
    · simp [hdigits.ne_nil]
    · simp only [ne_eq, List.drop_eq_nil_iff]
      exact hlong
    · intro hhead
      rw [List.head?_take, if_neg (Nat.succ_ne_zero _)] at hhead
      exact absurd hhead hdigits.head_ne
    · rw [← h, List.take_append_drop, List.length_drop]
      congr 2
      omega

/-- The exponent of scientific digits counts for their leading exponent. -/
theorem value_scientific (digits : List Char) (h : leading.natAbs < Exponent.enough) :
    ((scientific digits leading).exponent.map Exponent.value).getD 0 = leading := by
  rw [scientific]
  dsimp only [Option.map_some, Option.getD_some]
  rw [Exponent.value, Exponent.size_eq (by rw [readDigits_toDigits]; exact h)]
  dsimp only
  rw [readDigits_toDigits]
  by_cases hneg : leading < 0
  · rw [if_pos hneg, if_pos rfl]
    omega
  · rw [if_neg hneg, if_neg (by decide)]
    omega

/-- Scientific digits spell the number that their leading exponent gives them. -/
theorem denotes_scientific (hdigits : SignificantDigits digits)
    (hleading : leading.natAbs < Exponent.enough)
    (h : Decimal.magnitude ⟨readDigits digits, leading + 1 - digits.length⟩ = magnitude) :
    (scientific digits leading).Denotes magnitude := by
  have hexponent := value_scientific digits hleading
  obtain ⟨first, more, rfl⟩ := List.exists_cons_of_ne_nil hdigits.ne_nil
  have hmore : AllDigits more := hdigits.all_digits.sublist (List.sublist_cons_self _ _)
  have hfraction (part : List Char) (hpart : part ∈ (scientific (first :: more) leading).fraction) :
      part = more ∧ part ≠ [] := by
    rw [scientific] at hpart
    dsimp only at hpart
    split at hpart
    · cases hpart
    · rename_i hlong
      cases hpart
      exact ⟨rfl, fun hnil => hlong (by simpa using hnil)⟩
  have hdecimal : (scientific (first :: more) leading).fraction.getD [] = more := by
    rw [scientific]
    dsimp only
    split
    · rename_i hshort
      have hnil : more = [] := by simpa using hshort
      rw [hnil, Option.getD_none]
    · rfl
  constructor
  · refine ⟨hdigits.all_digits.sublist (List.take_sublist _ _), nofun, fun part hpart => ?_, ?_⟩
    · rw [(hfraction part hpart).1]
      exact hmore
    · rintro _ ⟨⟩
      refine ⟨Or.inl rfl, ?_, allDigits_toDigits _, Nat.toDigits_ne_nil⟩
      rintro _ ⟨⟩
      split
      · exact Or.inr rfl
      · exact Or.inl rfl
  · exact fun hhead => absurd hhead hdigits.head_ne
  · exact fun part hpart => (hfraction part hpart).2
  · exact Bool.or_true _
  · rw [← h, decimal, hexponent, hdecimal]
    dsimp only [scientific, List.take_succ_cons, List.take_zero, List.cons_append, List.nil_append]
    congr 2
    rw [List.length_cons]
    omega

/-- The numeral of a zero. -/
theorem denotes_zero : Denotes ⟨['0'], some ['0'], none⟩ 0 :=
  denotes_of_noExponent (allDigits_zeros 1) (allDigits_zeros 1) nofun nofun (fun _ => rfl)
    (Decimal.magnitude_of_digits_eq_zero rfl)

end

end Numeral

namespace Layout

/-- The JSON text of a finite magnitude is a numeral that spells it. -/
theorem exists_numeral {magnitude : Nat} (h : magnitude < infiniteMagnitude) :
    ∃ numeral : Numeral, numeral.text = json.magnitudeText magnitude ∧
      numeral.Denotes magnitude := by
  unfold magnitudeText
  split
  · rename_i hzero
    rw [hzero]
    exact ⟨_, Numeral.text_positional ['0'] 0, Numeral.denotes_zero⟩
  · rename_i hne
    have hpos : 0 < magnitude := Nat.pos_of_ne_zero hne
    dsimp only
    generalize hdecimal : Decimal.shortest json.tie magnitude = decimal
    have hshortest : decimal.magnitude = magnitude := by
      rw [← hdecimal]
      exact Decimal.magnitude_shortest _ hpos h
    have hbounds := Decimal.leading_bounds (by rwa [hshortest]) (by rwa [hshortest])
    have hdigits := significantDigits_toDigits
      (Nat.pos_of_ne_zero (Decimal.digits_ne_zero (by rwa [hshortest])))
    change ∃ numeral : Numeral, numeral.text =
      (if json.isPositional decimal.leading then
        positionalText true (withoutZeros (Nat.toDigits 10 decimal.digits)) decimal.leading
      else scientificText (withoutZeros (Nat.toDigits 10 decimal.digits)) decimal.leading) ∧ _
    have hmagnitude := decimal.magnitude_withoutZeros.trans hshortest
    split
    · exact ⟨_, Numeral.text_positional _ _,
        Numeral.denotes_positional hdigits.withoutZeros hmagnitude⟩
    · refine ⟨_, Numeral.text_scientific _ _,
        Numeral.denotes_scientific hdigits.withoutZeros ?_ hmagnitude⟩
      rw [Exponent.enough]
      omega

end Layout

end JsonTemplate
