import JsonTemplate.Proofs.Value.IntegerReadings

/-!
# Arithmetic of whole numbers

An operation gives an integer only as the exact result of the numbers that its operands read as.
Where the exact result has no 64 bits the operation reports an overflow, so no result is wrapped,
cut off or rounded. Only a division that leaves a remainder goes over to doubles, and it says so
by giving a double. Next to a text, `+` and `*` work on what both operands read as, and `-` and
`/` always fail.
-/

namespace JsonTemplate

/-- A number is what an operator gives on two others, without rounding. -/
def Operator.IsExact : Operator → Int → Int → Int → Prop
  | add, a, b, n => n = a + b
  | sub, a, b, n => n = a - b
  | mul, a, b, n => n = a * b
  | div, a, b, n => b ≠ 0 ∧ n * b = a

namespace Value

/-- The end of an operation on two numbers that is exact: the result, if it has 64 bits, and an
overflow otherwise. -/
inductive GivesExactly (operator : Operator) (a b : Int) : Except EvalError Value → Prop
  | exact {i : Int64} : operator.IsExact a b i.toInt → GivesExactly operator a b (.ok (.integer i))
  | overflow {n : Int} : operator.IsExact a b n → ¬IsInt64 n →
      GivesExactly operator a b (.error (.integerOverflow operator))

/-- The end of a division of two integers. -/
structure DividesExactly (a b : Int64) (result : Except EvalError Value) : Prop where
  byZero : result = .error .divisionByZero ↔ b.toInt = 0
  overflows : result = .error (.integerOverflow .div) ↔ a.toInt = -2 ^ 63 ∧ b.toInt = -1
  isInteger : b.toInt ≠ 0 → ¬(a.toInt = -2 ^ 63 ∧ b.toInt = -1) →
    ((∃ q, result = .ok (.integer q) ∧ q.toInt * b.toInt = a.toInt) ↔ b.toInt ∣ a.toInt)
  isFloat : b.toInt ≠ 0 → ¬b.toInt ∣ a.toInt →
    result = .ok (.float ((Double.ofInt a.toInt).div (.ofInt b.toInt)))

/-- What two values give together is exact on whole numbers, or says why it is not. -/
structure ExactOnIntegers (left right : Value) : Prop where
  /-- Two integers are added, subtracted and multiplied exactly. -/
  integers : ∀ a b, left = .integer a → right = .integer b → ∀ operator ≠ .div,
    GivesExactly operator a.toInt b.toInt (apply operator left right)
  /-- Two integers are divided exactly, or the quotient is a double. -/
  division : ∀ a b, left = .integer a → right = .integer b →
    DividesExactly a b (apply .div left right)
  /-- Next to a text, both readings are added and multiplied exactly. -/
  readings : left.isText ∨ right.isText → ∀ a b, left.Reads a → right.Reads b →
    ∀ operator ∈ [Operator.add, .mul], GivesExactly operator a b (apply operator left right)
  /-- Without both readings a sum is the joined texts. -/
  joined : left.isText ∨ right.isText → ¬(∃ a b, left.Reads a ∧ right.Reads b) →
    apply .add left right = .ok (.text (left.toText ++ right.toText))
  /-- Without both readings a product is refused. -/
  refused : left.isText ∨ right.isText → ¬(∃ a b, left.Reads a ∧ right.Reads b) →
    apply .mul left right = .error (.operandTypes .mul left.type right.type)
  /-- Next to a text there is no difference and no quotient. -/
  fails : left.isText ∨ right.isText → ∀ operator ∈ [Operator.sub, .div], ∀ value,
    apply operator left right ≠ .ok value
  /-- An integer that an operator gives is the exact result of what its operands read as. -/
  given : ∀ operator n, apply operator left right = .ok (.integer n) →
    ∃ a b, left.Reads a ∧ right.Reads b ∧ operator.IsExact a b n.toInt
  /-- An integer is negated as it is subtracted from zero. -/
  negated : ∀ a, left = .integer a → GivesExactly .sub 0 a.toInt left.neg
  /-- An integer that a negation gives is the exact opposite of what its operand reads as. -/
  opposite : ∀ n, left.neg = .ok (.integer n) → left.Reads (-n.toInt)

variable {operator : Operator} {left right : Value}

/-- An operation that is exact gives its result, or overflows. -/
theorem givesExactly_ofWhole {a b n : Int} (h : operator.IsExact a b n) :
    GivesExactly operator a b (ofWhole operator n) := by
  unfold ofWhole
  by_cases hn : IsInt64 n
  · obtain ⟨i, hi, rfl⟩ := integer?_of_isInt64 hn
    rw [hi]
    exact .exact h
  · rw [integer?_of_not_isInt64 hn]
    exact .overflow h hn

/-- An operation that gives an integer exactly is exact. -/
theorem GivesExactly.isExact {a b : Int} {n : Int64}
    (h : GivesExactly operator a b (.ok (.integer n))) : operator.IsExact a b n.toInt := by
  cases h with
  | exact h => exact h

/-- A double is never made into an integer. -/
theorem ofDouble_ne_integer (x : Double) (n : Int64) : ofDouble x ≠ .ok (.integer n) := by
  unfold ofDouble
  split <;> simp

/-- Numbers combined give an integer only if both are integers. -/
theorem exists_of_arithmetic_eq_integer {onIntegers : Int → Int → Int}
    {onDoubles : Double → Double → Double} {n : Int64}
    (h : arithmetic operator onIntegers onDoubles left right = .ok (.integer n)) :
    ∃ a b, left = .integer a ∧ right = .integer b := by
  unfold arithmetic at h
  split at h
  · exact ⟨_, _, rfl, rfl⟩
  · split at h
    · exact absurd h (ofDouble_ne_integer _ n)
    · simp [refuse] at h

/-- A text is no number. -/
theorem arithmetic_of_isText (onIntegers : Int → Int → Int)
    (onDoubles : Double → Double → Double) (h : left.isText ∨ right.isText) :
    arithmetic operator onIntegers onDoubles left right = refuse operator left right := by
  cases left <;> cases right <;> simp_all [isText, arithmetic, asDouble?]

/-- A quotient without a remainder is exact. -/
theorem isExact_div {a b : Int} (hb : b ≠ 0) (h : b ∣ a) : Operator.div.IsExact a b (a / b) :=
  ⟨hb, Int.ediv_mul_cancel h⟩

/-- Division by zero is an error. -/
theorem div_of_eq_zero {a b : Int64} (hb : b.toInt = 0) :
    div (.integer a) (.integer b) = .error .divisionByZero := by
  have hzero : b = 0 := Int64.toInt_inj.mp hb
  rw [hzero]
  rfl

/-- Division gives the quotient if it is whole, and else the nearest double. -/
theorem div_of_ne_zero {a b : Int64} (hb : b.toInt ≠ 0) : div (.integer a) (.integer b) =
    if b.toInt ∣ a.toInt then ofWhole .div (a.toInt / b.toInt)
    else .ok (.float ((Double.ofInt a.toInt).div (.ofInt b.toInt))) := by
  have hne : ¬(integer b).isZero := by
    intro hzero
    rw [beq_iff_eq.mp hzero] at hb
    exact hb rfl
  have hfinite := Double.isFinite_div_ofInt a hb
  simp only [div, hne, ofDouble, hfinite, if_true]
  rfl

/-- The only quotient of two 64-bit integers beyond them is that of the least one by `-1`. -/
theorem not_isInt64_iff_of_mul {a b : Int64} {n : Int} (hb : b.toInt ≠ 0)
    (h : n * b.toInt = a.toInt) : ¬IsInt64 n ↔ a.toInt = -2 ^ 63 ∧ b.toInt = -1 := by
  have hle := a.le_toInt
  have hlt := a.toInt_lt
  unfold IsInt64
  by_cases hone : b.toInt = 1 ∨ b.toInt = -1
  · rcases hone with hone | hone <;> rw [hone] at h ⊢ <;> omega
  · -- A divisor of at least two leaves half of the dividend.
    have hmul : n.natAbs * b.toInt.natAbs = a.toInt.natAbs := by rw [← Int.natAbs_mul, h]
    have htwo : n.natAbs * 2 ≤ n.natAbs * b.toInt.natAbs := Nat.mul_le_mul_left _ (by omega)
    omega

/-- An exact quotient is what a division has to give. -/
theorem GivesExactly.dividesExactly {a b : Int64} {result : Except EvalError Value}
    (h : GivesExactly .div a.toInt b.toInt result) : DividesExactly a b result := by
  cases h with
  | @exact q hq =>
    obtain ⟨hb, hmul⟩ := hq
    have hdvd : b.toInt ∣ a.toInt := Dvd.intro_left q.toInt hmul
    have hfits := mt (not_isInt64_iff_of_mul hb hmul).mpr (not_not_intro (isInt64_toInt q))
    exact
      { byZero := iff_of_false nofun hb
        overflows := iff_of_false nofun hfits
        isInteger := fun _ _ => iff_of_true ⟨q, rfl, hmul⟩ hdvd
        isFloat := fun _ hrest => absurd hdvd hrest }
  | @overflow n hn hlarge =>
    obtain ⟨hb, hmul⟩ := hn
    have hdvd : b.toInt ∣ a.toInt := Dvd.intro_left n hmul
    have hleast := (not_isInt64_iff_of_mul hb hmul).mp hlarge
    exact
      { byZero := iff_of_false nofun hb
        overflows := iff_of_true rfl hleast
        isInteger := fun _ hfits => absurd hleast hfits
        isFloat := fun _ hrest => absurd hdvd hrest }

/-- Division of integers is exact, or gives a float or an error. -/
theorem dividesExactly_div (a b : Int64) :
    DividesExactly a b (apply .div (.integer a) (.integer b)) := by
  rw [apply]
  by_cases hb : b.toInt = 0
  · rw [div_of_eq_zero hb]
    exact
      { byZero := iff_of_true rfl hb
        overflows := iff_of_false nofun (by omega)
        isInteger := fun hne => absurd hb hne
        isFloat := fun hne => absurd hb hne }
  by_cases hdvd : b.toInt ∣ a.toInt
  · rw [div_of_ne_zero hb, if_pos hdvd]
    exact (givesExactly_ofWhole (isExact_div hb hdvd)).dividesExactly
  · rw [div_of_ne_zero hb, if_neg hdvd]
    have hone : b.toInt ≠ -1 := fun hone => hdvd (hone ▸ Int.neg_dvd.mpr (Int.one_dvd _))
    exact
      { byZero := iff_of_false nofun hb
        overflows := iff_of_false nofun fun hleast => hone hleast.2
        isInteger := fun _ _ => iff_of_false nofun hdvd
        isFloat := fun _ _ => rfl }

/-- Operations on texts that read as integers are exact. -/
theorem apply_of_reads {a b : Int} (h : left.isText ∨ right.isText) (ha : left.Reads a)
    (hb : right.Reads b) :
    ∀ operator ∈ [Operator.add, .mul], GivesExactly operator a b (apply operator left right) := by
  obtain ⟨i, hi, rfl⟩ := reads_iff.mp ha
  obtain ⟨j, hj, rfl⟩ := reads_iff.mp hb
  have htext : (left.isText || right.isText) = true := Bool.or_eq_true_iff.mpr h
  have hsum : Operator.add.IsExact i.toInt j.toInt (i.toInt + j.toInt) := rfl
  have hproduct : Operator.mul.IsExact i.toInt j.toInt (i.toInt * j.toInt) := rfl
  simp [apply, add, mul, htext, hi, hj, givesExactly_ofWhole hsum, givesExactly_ofWhole hproduct]

/-- A value that does not read as a number has no integer, on either side. -/
theorem readInteger?_of_not_reads (h : ¬∃ a b, left.Reads a ∧ right.Reads b) (i j : Int64) :
    ¬(left.readInteger? = some i ∧ right.readInteger? = some j) := by
  rintro ⟨hi, hj⟩
  exact h ⟨_, _, reads_iff.mpr ⟨i, hi, rfl⟩, reads_iff.mpr ⟨j, hj, rfl⟩⟩

/-- Addition of other texts joins them. -/
theorem add_of_not_reads (h : left.isText ∨ right.isText)
    (hreads : ¬∃ a b, left.Reads a ∧ right.Reads b) :
    apply .add left right = .ok (.text (left.toText ++ right.toText)) := by
  have htext : (left.isText || right.isText) = true := Bool.or_eq_true_iff.mpr h
  rw [apply, add, if_pos htext]
  split
  · rename_i i j hi hj
    exact absurd ⟨hi, hj⟩ (readInteger?_of_not_reads hreads i j)
  · rfl

/-- Multiplication of other texts is an error. -/
theorem mul_of_not_reads (h : left.isText ∨ right.isText)
    (hreads : ¬∃ a b, left.Reads a ∧ right.Reads b) :
    apply .mul left right = .error (.operandTypes .mul left.type right.type) := by
  have htext : (left.isText || right.isText) = true := Bool.or_eq_true_iff.mpr h
  rw [apply, mul, if_pos htext]
  split
  · rename_i i j hi hj
    exact absurd ⟨hi, hj⟩ (readInteger?_of_not_reads hreads i j)
  · rfl

/-- Next to a text there is no quotient: a zero divisor or the text is refused. -/
theorem div_of_isText (h : left.isText ∨ right.isText) (value : Value) :
    div left right ≠ .ok value := by
  unfold div
  split
  · simp
  · cases left <;> cases right <;> simp_all [isText, asDouble?, refuse]

/-- A text is never subtracted from, and never subtracted. -/
theorem sub_of_isText (h : left.isText ∨ right.isText) (value : Value) :
    sub left right ≠ .ok value := by
  rw [sub, arithmetic_of_isText _ _ h]
  simp [refuse]

/-- Operations on integers other than division are exact. -/
theorem apply_integers (a b : Int64) (operator : Operator) (h : operator ≠ .div) :
    GivesExactly operator a.toInt b.toInt (apply operator (.integer a) (.integer b)) := by
  cases operator with
  | add | sub | mul => exact givesExactly_ofWhole rfl
  | div => exact absurd rfl h

/-- Numbers that are not both integers give no integer. -/
theorem exists_of_apply_eq_integer {n : Int64} (htext : ¬(left.isText ∨ right.isText))
    (h : apply operator left right = .ok (.integer n)) :
    ∃ a b, left = .integer a ∧ right = .integer b := by
  have hboth : ¬(left.isText || right.isText) := mt Bool.or_eq_true_iff.mp htext
  cases operator with
  | add =>
    rw [apply, add, if_neg hboth] at h
    exact exists_of_arithmetic_eq_integer h
  | sub => exact exists_of_arithmetic_eq_integer h
  | mul =>
    rw [apply, mul, if_neg hboth] at h
    exact exists_of_arithmetic_eq_integer h
  | div =>
    change div left right = _ at h
    unfold div at h
    split at h
    · cases h
    split at h
    · exact ⟨_, _, rfl, rfl⟩
    · split at h
      · exact absurd h (ofDouble_ne_integer _ n)
      · cases h

/-- A division that gives an integer is exact. -/
theorem isExact_of_div_eq_integer {a b n : Int64}
    (h : apply .div (.integer a) (.integer b) = .ok (.integer n)) :
    Operator.div.IsExact a.toInt b.toInt n.toInt := by
  rw [apply] at h
  by_cases hb : b.toInt = 0
  · rw [div_of_eq_zero hb] at h
    cases h
  rw [div_of_ne_zero hb] at h
  split at h
  · rename_i hdvd
    have hresult := givesExactly_ofWhole (isExact_div hb hdvd)
    rw [h] at hresult
    exact hresult.isExact
  · cases h

/-- An integer that is given next to a text is the exact result of both readings. -/
theorem isExact_of_isText {n : Int64} (h : left.isText ∨ right.isText)
    (hn : apply operator left right = .ok (.integer n)) :
    ∃ a b, left.Reads a ∧ right.Reads b ∧ operator.IsExact a b n.toInt := by
  have hoperator : operator ∈ [Operator.add, .mul] := by
    cases operator with
    | add | mul => decide
    | sub => exact absurd hn (sub_of_isText h _)
    | div => exact absurd hn (div_of_isText h _)
  by_cases hreads : ∃ a b, left.Reads a ∧ right.Reads b
  · obtain ⟨a, b, ha, hb⟩ := hreads
    have hgives := apply_of_reads h ha hb operator hoperator
    rw [hn] at hgives
    exact ⟨a, b, ha, hb, hgives.isExact⟩
  · cases operator with
    | add => simp [add_of_not_reads h hreads] at hn
    | mul => simp [mul_of_not_reads h hreads] at hn
    | sub | div => simp at hoperator

/-- An integer that an operator gives is the exact result of what its operands read as. -/
theorem isExact_of_apply_eq_integer {n : Int64} (h : apply operator left right = .ok (.integer n)) :
    ∃ a b, left.Reads a ∧ right.Reads b ∧ operator.IsExact a b n.toInt := by
  by_cases htext : left.isText ∨ right.isText
  · exact isExact_of_isText htext h
  · obtain ⟨a, b, rfl, rfl⟩ := exists_of_apply_eq_integer htext h
    refine ⟨a.toInt, b.toInt, .integer a, .integer b, ?_⟩
    by_cases hdiv : operator = .div
    · rw [hdiv] at h ⊢
      exact isExact_of_div_eq_integer h
    · have hgives := apply_integers a b operator hdiv
      rw [h] at hgives
      exact hgives.isExact

/-- Negating an integer subtracts it from zero. -/
theorem neg_integer (a : Int64) : GivesExactly .sub 0 a.toInt (neg (.integer a)) :=
  givesExactly_ofWhole (Int.zero_sub _).symm

/-- What gives an integer with its sign changed reads as its opposite. -/
theorem reads_of_neg_eq_integer {n : Int64} (h : left.neg = .ok (.integer n)) :
    left.Reads (-n.toInt) := by
  cases left with
  | integer a =>
    have hgives := neg_integer a
    rw [h] at hgives
    have hn : n.toInt = 0 - a.toInt := hgives.isExact
    rw [hn, Int.zero_sub, Int.neg_neg]
    exact .integer a
  | _ => cases h

/-- Arithmetic is exact on whole numbers or says why it is not, for all values. -/
theorem exactOnIntegers (left right : Value) : ExactOnIntegers left right where
  integers a b := by
    rintro rfl rfl operator hne
    exact apply_integers a b operator hne
  division a b := by
    rintro rfl rfl
    exact dividesExactly_div a b
  readings h _ _ ha hb := apply_of_reads h ha hb
  joined := add_of_not_reads
  refused := mul_of_not_reads
  fails h := by simp [apply, sub_of_isText h, div_of_isText h]
  given _ _ := isExact_of_apply_eq_integer
  negated a := by
    rintro rfl
    exact neg_integer a
  opposite _ := reads_of_neg_eq_integer

example : apply .add (.text " 40 ") (.text "+2") = .ok (.integer 42) := rfl

example : apply .div (.integer Int64.minValue) (.integer (-1)) = .error (.integerOverflow .div) :=
  rfl

end Value

end JsonTemplate
