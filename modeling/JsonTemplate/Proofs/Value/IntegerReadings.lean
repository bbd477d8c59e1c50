import JsonTemplate.Proofs.Number.Nearest
import JsonTemplate.Proofs.Scanner.TokenGrammar
import JsonTemplate.Value

/-!
# What values read as

Next to a text, every value is read as a whole number of 64 bits, if it can be: an integer as
itself, a double in the range as its whole part, and a text as the decimal number between its
blanks. `Reads` says this without the reader, and the reader finds exactly these numbers.
-/

namespace JsonTemplate

/-- The whole numbers of 64 bits. -/
def IsInt64 (n : Int) : Prop := -2 ^ 63 ≤ n ∧ n < 2 ^ 63

/-- Every integer is in range. -/
theorem isInt64_toInt (i : Int64) : IsInt64 i.toInt := ⟨i.le_toInt, i.toInt_lt⟩

/-- A number in range is an integer. -/
theorem integer?_of_isInt64 {n : Int} (h : IsInt64 n) :
    ∃ i, integer? n = some i ∧ i.toInt = n := by
  have hn := integer?_eq n
  rw [if_pos (show -2 ^ 63 ≤ n ∧ n < 2 ^ 63 from h)] at hn
  exact ⟨_, hn, toInt_of_integer? hn⟩

/-- A number out of range is no integer. -/
theorem integer?_of_not_isInt64 {n : Int} (h : ¬IsInt64 n) : integer? n = none := by
  rw [integer?_eq]
  exact if_neg h

/-- Decimal digits with an optional sign, and the number that they spell. -/
inductive SpellsInteger : List Char → Int → Prop
  | unsigned {digits : List Char} :
      digits ≠ [] → AllDigits digits → SpellsInteger digits (readDigits digits)
  | positive {digits : List Char} :
      digits ≠ [] → AllDigits digits → SpellsInteger ('+' :: digits) (readDigits digits)
  | negative {digits : List Char} :
      digits ≠ [] → AllDigits digits → SpellsInteger ('-' :: digits) (-(readDigits digits : Int))

namespace Double

/-- A finite double from a whole number on, and below another one. -/
structure IsWithin (x : Double) (least bound : Int) : Prop where
  finite : x.isFinite
  least_le : least * unitsInOne ≤ x.signedUnits
  lt_bound : x.signedUnits < bound * unitsInOne

/-- What is left of a double without its fraction: the nearest whole number towards zero. -/
structure IsWholePart (x : Double) (n : Int) : Prop where
  of_nonneg : 0 ≤ x.signedUnits →
    n * unitsInOne ≤ x.signedUnits ∧ x.signedUnits < (n + 1) * unitsInOne
  of_nonpos : x.signedUnits ≤ 0 →
    (n - 1) * unitsInOne < x.signedUnits ∧ x.signedUnits ≤ n * unitsInOne

end Double

/-- The whole number of 64 bits that a value reads as. -/
inductive Value.Reads : Value → Int → Prop
  | integer (value : Int64) : Reads (.integer value) value.toInt
  | float {x : Double} {n : Int} :
      x.IsWithin (-2 ^ 63) (2 ^ 63) → x.IsWholePart n → Reads (.float x) n
  | text {before spelled after : List Char} {n : Int} :
      (∀ c ∈ before, isBlank c) → (∀ c ∈ after, isBlank c) →
      SpellsInteger spelled n → IsInt64 n →
      Reads (.text (.ofList (before ++ spelled ++ after))) n

/-- Trimming takes blanks off both ends, and nothing else. -/
theorem exists_trimBlanks (text : List Char) : ∃ before after,
    text = before ++ trimBlanks text ++ after ∧ (∀ c ∈ before, isBlank c) ∧
      ∀ c ∈ after, isBlank c := by
  have hfront := List.takeWhile_append_dropWhile (p := isBlank) (l := text)
  have hback := List.takeWhile_append_dropWhile (p := isBlank)
    (l := (text.dropWhile isBlank).reverse)
  rw [← List.reverse_inj, List.reverse_append, List.reverse_reverse] at hback
  refine ⟨text.takeWhile isBlank, ((text.dropWhile isBlank).reverse.takeWhile isBlank).reverse,
    ?_, all_takeWhile _ _, ?_⟩
  · rw [List.append_assoc, trimBlanks, hback, hfront]
  · exact fun c hc => all_takeWhile _ _ c (List.mem_reverse.mp hc)

/-- A text without blanks is what is left of it between blanks. -/
theorem trimBlanks_append {before middle after : List Char} (hbefore : ∀ c ∈ before, isBlank c)
    (hafter : ∀ c ∈ after, isBlank c) (hne : middle ≠ []) (hmiddle : ∀ c ∈ middle, ¬isBlank c) :
    trimBlanks (before ++ middle ++ after) = middle := by
  have hfront : NotBefore (isBlank ·) (middle ++ after) := by
    cases middle with
    | nil => exact absurd rfl hne
    | cons c middle => exact notBefore_cons.mpr (hmiddle c List.mem_cons_self)
  have hback : NotBefore (isBlank ·) middle.reverse := fun c hc =>
    hmiddle c (List.mem_reverse.mp (List.mem_of_head? hc))
  have hreverse : ∀ c ∈ after.reverse, isBlank c := fun c hc => hafter c (List.mem_reverse.mp hc)
  rw [trimBlanks, List.append_assoc, dropWhile_append_of_notBefore hbefore hfront,
    List.reverse_append, dropWhile_append_of_notBefore hreverse hback, List.reverse_reverse]

/-- No digit is a blank that is trimmed. -/
theorem not_isBlank_of_isDigit {c : Char} (h : c.isDigit) : ¬isBlank c := by
  simp only [Char.isDigit, Bool.and_eq_true, decide_eq_true_eq, ge_iff_le,
    UInt32.le_iff_toNat_le] at h
  simp only [isBlank, blankRanges, List.any_cons, List.any_nil, Bool.or_false, Bool.or_eq_true,
    Bool.and_eq_true, decide_eq_true_eq, Char.le_def, UInt32.le_iff_toNat_le]
  simp at h ⊢
  omega

/-- The characters of a number are no blanks. -/
theorem SpellsInteger.not_isBlank {spelled : List Char} {n : Int} (h : SpellsInteger spelled n) :
    ∀ c ∈ spelled, ¬isBlank c := by
  cases h with
  | unsigned _ hdigits => exact fun c hc => not_isBlank_of_isDigit (hdigits c hc)
  | positive _ hdigits | negative _ hdigits =>
    refine List.forall_mem_cons.mpr ⟨by decide, ?_⟩
    exact fun c hc => not_isBlank_of_isDigit (hdigits c hc)

/-- The spelling of an integer has a digit. -/
theorem SpellsInteger.ne_nil {spelled : List Char} {n : Int} (h : SpellsInteger spelled n) :
    spelled ≠ [] := by
  cases h with
  | unsigned hne => exact hne
  | positive | negative => exact List.cons_ne_nil _ _

/-- Digits are a text of at least one digit. -/
theorem isDigits_iff {digits : List Char} : isDigits digits ↔ digits ≠ [] ∧ AllDigits digits := by
  simp [isDigits, AllDigits]

/-- What is read as a number with an optional sign is what spells it. -/
theorem readSigned?_eq_some_iff {text : List Char} {n : Int} :
    readSigned? text = some n ↔ SpellsInteger text n := by
  constructor
  · intro h
    unfold readSigned? at h
    split at h <;> split at h <;> cases h
    all_goals
      rename_i hdigits
      obtain ⟨hne, hall⟩ := isDigits_iff.mp hdigits
    · exact .negative hne hall
    · exact .positive hne hall
    · exact .unsigned hne hall
  · intro h
    cases h with
    | positive hne hall | negative hne hall => exact if_pos (isDigits_iff.mpr ⟨hne, hall⟩)
    | unsigned hne hall =>
      have hfirst (sign : Char) (hsign : ¬sign.isDigit) (rest : List Char) :
          text ≠ sign :: rest := by
        rintro rfl
        exact hsign (hall sign List.mem_cons_self)
      rw [readSigned?, if_pos (isDigits_iff.mpr ⟨hne, hall⟩)]
      · exact hfirst '-' (by decide)
      · exact hfirst '+' (by decide)

namespace Double

/-- Dropping the fraction leaves the whole part. -/
theorem isWholePart_truncate (x : Double) : x.IsWholePart x.truncate := by
  have hpos := Int.natCast_pos.mpr unitsInOne_pos
  unfold truncate
  constructor
  · intro h
    rw [Int.tdiv_eq_ediv_of_nonneg h]
    exact ⟨Int.ediv_mul_le _ (Int.ne_of_gt hpos), Int.lt_ediv_add_one_mul_self _ hpos⟩
  · intro h
    have hneg : x.signedUnits.tdiv unitsInOne = -(-x.signedUnits / unitsInOne) := by
      rw [← Int.tdiv_eq_ediv_of_nonneg (Int.neg_nonneg_of_nonpos h), Int.neg_tdiv, Int.neg_neg]
    have hle := Int.ediv_mul_le (-x.signedUnits) (Int.ne_of_gt hpos)
    have hlt := Int.lt_ediv_add_one_mul_self (-x.signedUnits) hpos
    rw [Int.add_mul, Int.one_mul] at hlt
    rw [hneg, Int.sub_mul, Int.one_mul, Int.neg_mul]
    constructor <;> omega

/-- Two whole parts of a double are not apart. -/
theorem IsWholePart.le {x : Double} {n other : Int} (h : x.IsWholePart n)
    (hother : x.IsWholePart other) : n ≤ other := by
  have hpos := Int.natCast_pos.mpr unitsInOne_pos
  rcases Int.le_total 0 x.signedUnits with hsign | hsign
  · have hlt := Int.lt_of_le_of_lt (h.of_nonneg hsign).1 (hother.of_nonneg hsign).2
    exact Int.lt_add_one_iff.mp (Int.lt_of_mul_lt_mul_right hlt (Int.le_of_lt hpos))
  · have hlt := Int.lt_of_lt_of_le (h.of_nonpos hsign).1 (hother.of_nonpos hsign).2
    have := Int.lt_of_mul_lt_mul_right hlt (Int.le_of_lt hpos)
    omega

/-- A double has one whole part. -/
theorem IsWholePart.unique {x : Double} {n other : Int} (h : x.IsWholePart n)
    (hother : x.IsWholePart other) : n = other :=
  Int.le_antisymm (h.le hother) (hother.le h)

/-- The whole part of a double in the range of 64-bit integers is one of them. -/
theorem IsWholePart.isInt64 {x : Double} {n : Int} (h : x.IsWholePart n)
    (hx : x.IsWithin (-2 ^ 63) (2 ^ 63)) : IsInt64 n := by
  have hone := Int.natCast_pos.mpr unitsInOne_pos
  have hpos := Int.le_of_lt hone
  rcases Int.le_total 0 x.signedUnits with hsign | hsign
  · obtain ⟨hle, hlt⟩ := h.of_nonneg hsign
    have hleast := Int.lt_of_mul_lt_mul_right (Int.lt_of_le_of_lt hx.least_le hlt) hpos
    have hbound := Int.lt_of_mul_lt_mul_right (Int.lt_of_le_of_lt hle hx.lt_bound) hpos
    exact ⟨Int.lt_add_one_iff.mp hleast, hbound⟩
  · obtain ⟨hlt, hle⟩ := h.of_nonpos hsign
    have hleast := Int.le_of_mul_le_mul_right (Int.le_trans hx.least_le hle) hone
    have hzero := Int.lt_of_mul_lt_mul_right (Int.lt_of_lt_of_le hlt
      (Int.le_trans hsign (Int.le_of_eq (Int.zero_mul unitsInOne).symm))) hpos
    refine ⟨hleast, ?_⟩
    omega

end Double

namespace Value

/-- The whole part of a double is an integer if the double is in range. -/
theorem wholePart?_eq_some_iff {x : Double} {i : Int64} :
    wholePart? x = some i ↔ x.IsWithin (-2 ^ 63) (2 ^ 63) ∧ x.IsWholePart i.toInt := by
  have hwhole := x.isWholePart_truncate
  have hwithin : (x.isFinite ∧ -(2 ^ 63 * (Double.unitsInOne : Int)) ≤ x.signedUnits ∧
      x.signedUnits < 2 ^ 63 * Double.unitsInOne) ↔ x.IsWithin (-2 ^ 63) (2 ^ 63) := by
    rw [← Int.neg_mul]
    exact ⟨fun h => ⟨h.1, h.2.1, h.2.2⟩, fun h => ⟨h.finite, h.least_le, h.lt_bound⟩⟩
  unfold wholePart?
  dsimp only
  split
  · rename_i hrange
    have hx := hwithin.mp hrange
    obtain ⟨j, hj, htoInt⟩ := integer?_of_isInt64 (hwhole.isInt64 hx)
    rw [hj, and_iff_right hx, Option.some_inj]
    constructor
    · rintro rfl
      exact htoInt ▸ hwhole
    · exact fun hi => Int64.toInt_inj.mp (htoInt.trans (hwhole.unique hi))
  · rename_i hrange
    exact iff_of_false nofun fun h => hrange (hwithin.mpr h.1)

/-- The reader finds the number that a value reads as, and no other. -/
theorem reads_iff {value : Value} {n : Int} :
    value.Reads n ↔ ∃ i, value.readInteger? = some i ∧ i.toInt = n := by
  constructor
  · intro h
    cases h with
    | integer i => exact ⟨i, rfl, rfl⟩
    | float hx hn =>
      obtain ⟨i, -, rfl⟩ := integer?_of_isInt64 (hn.isInt64 hx)
      exact ⟨i, wholePart?_eq_some_iff.mpr ⟨hx, hn⟩, rfl⟩
    | text hbefore hafter hspells hn =>
      obtain ⟨i, hi, rfl⟩ := integer?_of_isInt64 hn
      refine ⟨i, ?_, rfl⟩
      rw [readInteger?, String.toList_ofList,
        trimBlanks_append hbefore hafter hspells.ne_nil hspells.not_isBlank,
        readSigned?_eq_some_iff.mpr hspells]
      exact hi
  · rintro ⟨i, hread, rfl⟩
    cases value with
    | integer j =>
      cases hread
      exact .integer i
    | float x =>
      obtain ⟨hx, hi⟩ := wholePart?_eq_some_iff.mp hread
      exact .float hx hi
    | text text =>
      obtain ⟨n, hn, hi⟩ := Option.bind_eq_some_iff.mp hread
      obtain ⟨before, after, htext, hbefore, hafter⟩ := exists_trimBlanks text.toList
      have hreads : Reads (.text (.ofList (before ++ trimBlanks text.toList ++ after))) i.toInt :=
        .text hbefore hafter (toInt_of_integer? hi ▸ readSigned?_eq_some_iff.mp hn)
          (isInt64_toInt i)
      rwa [← htext, String.ofList_toList] at hreads
    | boolean | null | fragment => cases hread

end Value

end JsonTemplate
