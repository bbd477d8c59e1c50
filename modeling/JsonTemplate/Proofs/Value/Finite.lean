import JsonTemplate.Proofs.Evaluation.Invariants
import JsonTemplate.Proofs.Json.Canonical
import JsonTemplate.Proofs.Number.Nearest
import JsonTemplate.Proofs.Number.Readback
import JsonTemplate.Proofs.Value.Operations

/-!
# Finite values

A value is finite if no infinity and no not-a-number stands anywhere in it. All operations keep
values finite, because a result that is not finite is refused; so conversions to JSON never fail,
and the only error of that kind is an operator's whose result as a double is not finite. The text of
a finite double is made of digits, signs, a point and an exponent's letter.
-/

namespace JsonTemplate

namespace Json

/-- A double that stands somewhere in a JSON value. -/
def Holds (json : Json) (x : Double) : Prop := ∃ level, At (.float x) level json

/-- All doubles in a JSON value are finite. -/
def IsFinite (json : Json) : Prop := ∀ x, json.Holds x → x.isFinite

/-- A float is finite if its double is. -/
theorem isFinite_float {x : Double} : (float x).IsFinite ↔ x.isFinite := by
  constructor
  · exact fun h => h x ⟨0, .here⟩
  · rintro h _ ⟨_, ⟨⟩⟩
    exact h

/-- An array is finite if its items are. -/
theorem isFinite_array {items : List Json} :
    (array items).IsFinite ↔ ∀ item ∈ items, item.IsFinite := by
  constructor
  · rintro h item hitem x ⟨level, hat⟩
    exact h x ⟨level + 1, .array hitem hat⟩
  · rintro h x ⟨_, hat⟩
    cases hat with
    | array hitem hat => exact h _ hitem x ⟨_, hat⟩

/-- An object is finite if the values of its members are. -/
theorem isFinite_object {members : List (String × Json)} :
    (object members).IsFinite ↔ ∀ member ∈ members, member.2.IsFinite := by
  constructor
  · rintro h member hmember x ⟨level, hat⟩
    exact h x ⟨level + 1, .object hmember hat⟩
  · rintro h x ⟨_, hat⟩
    cases hat with
    | object hmember hat => exact h _ hmember x ⟨_, hat⟩

/-- A finite object stays finite with another finite member. -/
theorem IsFinite.insertMember {members : List (String × Json)} {value : Json}
    (h : (object members).IsFinite) (hvalue : value.IsFinite) (name : String) :
    (object (insertMember name value members)).IsFinite := by
  refine isFinite_object.mpr fun member hmember => ?_
  rcases mem_insertMember hmember with rfl | hold
  · exact hvalue
  · exact isFinite_object.mp h member hold

/-- What an accessor reaches in a finite value is finite. -/
theorem IsFinite.step? {accessor : Accessor} {json result : Json} (h : json.IsFinite)
    (hstep : Json.step? accessor json = some result) : result.IsFinite := by
  unfold Json.step? at hstep
  split at hstep
  · exact isFinite_object.mp h _ (mem_of_lookup hstep)
  · exact isFinite_array.mp h _ (List.mem_of_getElem? hstep)
  · cases hstep

/-- What a path reaches in a finite value is finite. -/
theorem IsFinite.walk? {path : List Accessor} {json result : Json} (h : json.IsFinite)
    (hwalk : Json.walk? path json = some result) : result.IsFinite := by
  induction path generalizing json with
  | nil =>
    cases hwalk
    exact h
  | cons accessor path ih =>
    obtain ⟨next, hstep, hrest⟩ := Option.bind_eq_some_iff.mp hwalk
    exact ih (h.step? hstep) hrest

end Json

namespace Operator

/-- What an operator gives on two doubles. -/
def onDoubles : Operator → Double → Double → Double
  | add => Double.add
  | sub => Double.sub
  | mul => Double.mul
  | div => Double.div

end Operator

namespace Value

/-- A double that stands somewhere in a value. -/
def Holds : Value → Double → Prop
  | float y, x => x = y
  | fragment json, x => json.Holds x
  | _, _ => False

/-- All doubles in a value are finite. -/
def IsFinite (value : Value) : Prop := ∀ x, value.Holds x → x.isFinite

/-- Two values are or convert to finite doubles, and what an operator gives on these is not
finite. -/
def Overflows (operator : Operator) (left right : Value) : Prop :=
  ∃ x y, left.asDouble? = some x ∧ right.asDouble? = some y ∧ x.isFinite ∧ y.isFinite ∧
    ¬(operator.onDoubles x y).isFinite

/-- A float as a value is finite if its double is. -/
theorem isFinite_float {x : Double} : (float x).IsFinite ↔ x.isFinite := forall_eq

/-- A value made from finite JSON is finite. -/
theorem isFinite_ofJson {json : Json} (h : json.IsFinite) : (ofJson json).IsFinite := by
  cases json with
  | float x => exact isFinite_float.mpr (Json.isFinite_float.mp h)
  | array | object => exact h
  | _ => exact nofun

/-- The conversion of a finite value to JSON never fails. -/
theorem exists_toJson {value : Value} (h : value.IsFinite) :
    ∃ json, value.toJson = .ok json ∧ json.IsFinite := by
  cases value with
  | float x =>
    have hx := isFinite_float.mp h
    exact ⟨.float x, if_pos hx, Json.isFinite_float.mpr hx⟩
  | fragment json => exact ⟨json, rfl, h⟩
  | _ => exact ⟨_, rfl, by rintro x ⟨_, ⟨⟩⟩⟩

/-- A finite value is a finite double if it is one at all. -/
theorem isFinite_of_asDouble? {value : Value} (h : value.IsFinite) {x : Double}
    (hx : value.asDouble? = some x) : x.isFinite := by
  cases value with
  | integer n =>
    cases hx
    exact Double.isFinite_ofInt n
  | float y =>
    cases hx
    exact isFinite_float.mp h
  | _ => cases hx

/-- The end of an operation of an operator on two values: a finite value, and the error of numbers
that are not finite only where the doubles overflow. -/
abbrev OperatesFinitely (operator : Operator) (left right : Value)
    (result : Except EvalError Value) : Prop :=
  Admits (fun error => error = .nonFiniteNumber → Overflows operator left right) IsFinite result

variable {operator : Operator} {left right : Value}

/-- A whole number is finite, or an overflow. -/
theorem operatesFinitely_ofWhole (sign : Operator) (n : Int) :
    OperatesFinitely operator left right (ofWhole sign n) := by
  unfold ofWhole
  split <;> exact nofun

/-- A quotient of finite doubles is finite, or the operation overflows. -/
theorem operatesFinitely_ofDouble {x y : Double} (hl : left.IsFinite) (hr : right.IsFinite)
    (hx : left.asDouble? = some x) (hy : right.asDouble? = some y) :
    OperatesFinitely operator left right (ofDouble (operator.onDoubles x y)) := by
  unfold ofDouble
  split
  · rename_i hfinite
    exact isFinite_float.mpr hfinite
  · rename_i hinfinite
    exact fun _ => ⟨x, y, hx, hy, isFinite_of_asDouble? hl hx, isFinite_of_asDouble? hr hy,
      hinfinite⟩

/-- Arithmetic on finite values is finite, or overflows. -/
theorem operatesFinitely_arithmetic (onIntegers : Int → Int → Int) (hl : left.IsFinite)
    (hr : right.IsFinite) : OperatesFinitely operator left right
      (arithmetic operator onIntegers operator.onDoubles left right) := by
  unfold arithmetic
  split
  · exact operatesFinitely_ofWhole _ _
  · split
    · rename_i hx hy
      exact operatesFinitely_ofDouble hl hr hx hy
    · exact nofun

/-- Addition of finite values is finite, or overflows. -/
theorem operatesFinitely_add (hl : left.IsFinite) (hr : right.IsFinite) :
    OperatesFinitely .add left right (add left right) := by
  unfold add
  split
  · split
    · exact operatesFinitely_ofWhole _ _
    · exact nofun
  · exact operatesFinitely_arithmetic _ hl hr

/-- Multiplication of finite values is finite, or overflows. -/
theorem operatesFinitely_mul (hl : left.IsFinite) (hr : right.IsFinite) :
    OperatesFinitely .mul left right (mul left right) := by
  unfold mul
  split
  · split
    · exact operatesFinitely_ofWhole _ _
    · exact nofun
  · exact operatesFinitely_arithmetic _ hl hr

/-- Division of finite values is finite, or overflows. -/
theorem operatesFinitely_div (hl : left.IsFinite) (hr : right.IsFinite) :
    OperatesFinitely .div left right (div left right) := by
  unfold div
  split
  · exact nofun
  split
  · split
    · exact operatesFinitely_ofWhole _ _
    · apply operatesFinitely_ofDouble hl hr rfl rfl
  · split
    · rename_i hx hy
      exact operatesFinitely_ofDouble hl hr hx hy
    · exact nofun

/-- An operator takes finite values to a finite one, and the error of numbers that are not finite is
that of doubles that overflow. -/
theorem operatesFinitely_apply (operator : Operator) {left right : Value} (hl : left.IsFinite)
    (hr : right.IsFinite) : OperatesFinitely operator left right (apply operator left right) := by
  cases operator with
  | add => exact operatesFinitely_add hl hr
  | sub => exact operatesFinitely_arithmetic _ hl hr
  | mul => exact operatesFinitely_mul hl hr
  | div => exact operatesFinitely_div hl hr

/-- A finite value is negated to a finite one, and its numbers stay finite. -/
theorem admits_neg {operand : Value} (h : operand.IsFinite) :
    Admits (· ≠ .nonFiniteNumber) IsFinite operand.neg := by
  cases operand with
  | integer n =>
    rw [neg, ofWhole]
    split <;> exact nofun
  | float x =>
    have hx := isFinite_float.mp h
    exact isFinite_float.mpr hx
  | _ => exact nofun

end Value

/-- What is admitted holds of a result that is given. -/
theorem Admits.ifOk {α : Type} {E : EvalError → Prop} {P : α → Prop} {result : Except EvalError α}
    (h : Admits E P result) : IfOk P result := by
  cases result with
  | ok value => exact h
  | error error => trivial

/-- All operations keep values and JSON values finite. -/
theorem stable_isFinite : Stable Value.IsFinite Json.IsFinite where
  integer _ := nofun
  text _ := nofun
  boolean _ := nofun
  null := nofun
  ofJson _ := Value.isFinite_ofJson
  toJson value hvalue := by
    obtain ⟨json, hjson, hfinite⟩ := Value.exists_toJson hvalue
    rw [hjson]
    exact hfinite
  apply operator _ _ hl hr := (Value.operatesFinitely_apply operator hl hr).ifOk
  neg _ h := (Value.admits_neg h).ifOk
  array _ := Json.isFinite_array.mpr
  object_nil := Json.isFinite_object.mpr nofun
  insertMember name _ _ hvalue hmembers := hmembers.insertMember hvalue name
  walk? _ _ _ h := h.walk?

namespace Layout

/-- A text of digits, signs, points and exponents' letters. -/
def IsNumeric (text : List Char) : Prop := ∀ c ∈ text, c.isDigit ∨ c ∈ ['+', '-', '.', 'e']

/-- A text is numeric if both of its parts are. -/
theorem isNumeric_append {front back : List Char} :
    IsNumeric (front ++ back) ↔ IsNumeric front ∧ IsNumeric back := List.forall_mem_append

/-- Digits are numeric. -/
theorem isNumeric_of_allDigits {digits : List Char} (h : AllDigits digits) : IsNumeric digits :=
  fun c hc => Or.inl (h c hc)

/-- A number laid out by position is numeric. -/
theorem isNumeric_positionalText (marked : Bool) {digits : List Char} (h : AllDigits digits)
    (leading : Int) : IsNumeric (positionalText marked digits leading) := by
  unfold positionalText
  split
  · refine isNumeric_append.mpr ⟨isNumeric_append.mpr ⟨?_, ?_⟩, isNumeric_of_allDigits h⟩
    · simp [IsNumeric]
    · exact isNumeric_of_allDigits (allDigits_zeros _)
  · dsimp only
    split
    · refine isNumeric_append.mpr ⟨isNumeric_append.mpr ⟨?_, ?_⟩, ?_⟩
      · exact isNumeric_of_allDigits h
      · exact isNumeric_of_allDigits (allDigits_zeros _)
      · cases marked <;> simp [IsNumeric]
    · refine isNumeric_append.mpr ⟨?_, List.forall_mem_cons.mpr ⟨?_, ?_⟩⟩
      · exact isNumeric_of_allDigits (h.sublist (List.take_sublist _ _))
      · simp
      · exact isNumeric_of_allDigits (h.sublist (List.drop_sublist _ _))

/-- A number laid out with a power of ten is numeric. -/
theorem isNumeric_scientificText {digits : List Char} (h : AllDigits digits) (leading : Int) :
    IsNumeric (scientificText digits leading) := by
  unfold scientificText
  refine isNumeric_append.mpr
    ⟨isNumeric_append.mpr ⟨isNumeric_append.mpr ⟨?_, ?_⟩, ?_⟩, ?_⟩
  · exact isNumeric_of_allDigits (h.sublist (List.take_sublist _ _))
  · split
    · exact List.forall_mem_nil _
    · refine List.forall_mem_cons.mpr ⟨by simp, ?_⟩
      exact isNumeric_of_allDigits (h.sublist (List.drop_sublist _ _))
  · split <;> simp [IsNumeric]
  · exact isNumeric_of_allDigits (allDigits_toDigits _)

/-- A finite magnitude is laid out in numeric characters. -/
theorem isNumeric_magnitudeText (layout : Layout) (magnitude : Nat) :
    IsNumeric (layout.magnitudeText magnitude) := by
  unfold magnitudeText
  split
  · exact isNumeric_positionalText _ (allDigits_zeros 1) _
  · dsimp only
    generalize Decimal.shortest layout.tie magnitude = decimal
    have hdigits : AllDigits (withoutZeros (Nat.toDigits 10 decimal.digits)) :=
      (allDigits_toDigits decimal.digits).sublist (sublist_withoutZeros _)
    split
    · exact isNumeric_positionalText _ hdigits _
    · exact isNumeric_scientificText hdigits _

/-- A double is written as digits, signs, points and exponents' letters exactly if it is finite. -/
theorem isNumeric_text_iff (layout : Layout) {x : Double} :
    IsNumeric (layout.text x) ↔ x.isFinite := by
  have hletter (c : Char) (h : c = 'N' ∨ c = 'i') (hmem : c ∈ layout.text x) :
      ¬IsNumeric (layout.text x) := by
    intro hnumeric
    have hc := hnumeric c hmem
    rcases h with rfl | rfl <;> revert hc <;> decide
  rw [Double.isFinite, decide_eq_true_iff]
  rcases Nat.lt_trichotomy x.magnitude infiniteMagnitude with hlt | heq | hgt
  · have hnan : ¬x.isNaN := by
      rw [Double.isNaN, decide_eq_true_iff]
      omega
    have hinfinite : ¬x.isInfinite := by
      rw [Double.isInfinite, beq_iff_eq]
      omega
    rw [text, if_neg hnan, if_neg hinfinite, isNumeric_append]
    refine iff_of_true ⟨?_, isNumeric_magnitudeText _ _⟩ hlt
    cases x.negative <;> simp [IsNumeric]
  · have hnan : ¬x.isNaN := by
      rw [Double.isNaN, decide_eq_true_iff]
      omega
    refine iff_of_false (hletter 'i' (Or.inr rfl) ?_) (by omega)
    rw [text, if_neg hnan, if_pos (show x.isInfinite from beq_iff_eq.mpr heq)]
    exact List.mem_append_right _ List.mem_cons_self
  · refine iff_of_false (hletter 'N' (Or.inl rfl) ?_) (by omega)
    rw [text, if_pos (show x.isNaN from decide_eq_true hgt)]
    exact List.mem_cons_self

end Layout

namespace Json

mutual

/-- The text of a value with its doubles written in a given way. -/
def textWith (number : Double → List Char) (spacing : Spacing) (depth : Nat) : Json → List Char
  | float value => number value
  | array items =>
    bracketed spacing depth '[' ']' (itemTextsWith number spacing (depth + 1) items)
  | object members =>
    bracketed spacing depth '{' '}' (memberTextsWith number spacing (depth + 1) members)
  | other => other.text spacing depth

/-- The texts of the items of an array, with a layout for numbers. -/
def itemTextsWith (number : Double → List Char) (spacing : Spacing) (depth : Nat) :
    List Json → List (List Char)
  | [] => []
  | item :: rest =>
    textWith number spacing depth item :: itemTextsWith number spacing depth rest

/-- The texts of the members of an object, with a layout for numbers. -/
def memberTextsWith (number : Double → List Char) (spacing : Spacing) (depth : Nat) :
    List (String × Json) → List (List Char)
  | [] => []
  | (name, value) :: rest =>
    (quote name.toList ++ spacing.colon ++ textWith number spacing depth value) ::
      memberTextsWith number spacing depth rest

end

mutual

/-- The text of a value depends only on how the doubles that stand in it are written. -/
theorem textWith_eq_text {number : Double → List Char} (spacing : Spacing) (depth : Nat) :
    (json : Json) → (∀ x, json.Holds x → number x = Layout.json.text x) →
      json.textWith number spacing depth = json.text spacing depth
  | float value, h => h value ⟨0, .here⟩
  | array items, h => by
    rw [textWith, text, itemTextsWith_eq_itemTexts spacing (depth + 1) items]
    rintro item hitem x ⟨level, hat⟩
    exact h x ⟨level + 1, .array hitem hat⟩
  | object members, h => by
    rw [textWith, text, memberTextsWith_eq_memberTexts spacing (depth + 1) members]
    rintro member hmember x ⟨level, hat⟩
    exact h x ⟨level + 1, .object hmember hat⟩
  | null, _ | boolean _, _ | integer _, _ | string _, _ => rfl

/-- Items are written alike by layouts that agree on their numbers. -/
theorem itemTextsWith_eq_itemTexts {number : Double → List Char} (spacing : Spacing)
    (depth : Nat) : (items : List Json) →
    (∀ item ∈ items, ∀ x, item.Holds x → number x = Layout.json.text x) →
      itemTextsWith number spacing depth items = itemTexts spacing depth items
  | [], _ => rfl
  | item :: rest, h => by
    obtain ⟨hitem, hrest⟩ := List.forall_mem_cons.mp h
    rw [itemTextsWith, itemTexts, textWith_eq_text spacing depth item hitem,
      itemTextsWith_eq_itemTexts spacing depth rest hrest]

/-- Members are written alike by layouts that agree on their numbers. -/
theorem memberTextsWith_eq_memberTexts {number : Double → List Char} (spacing : Spacing)
    (depth : Nat) : (members : List (String × Json)) →
    (∀ member ∈ members, ∀ x, member.2.Holds x → number x = Layout.json.text x) →
      memberTextsWith number spacing depth members = memberTexts spacing depth members
  | [], _ => rfl
  | (name, value) :: rest, h => by
    obtain ⟨hvalue, hrest⟩ := List.forall_mem_cons.mp h
    rw [memberTextsWith, memberTexts, textWith_eq_text spacing depth value hvalue,
      memberTextsWith_eq_memberTexts spacing depth rest hrest]

end

end Json

namespace Value

/-- The text of a value in a concatenation, with its doubles written in a given way. -/
def textWith (number : Double → List Char) : Value → String
  | float value => .ofList (number value)
  | fragment json => .ofList (json.textWith number .compact 0)
  | other => other.toText

/-- The text of a value has no text of an infinity or a not-a-number in it: all doubles in it are
written as numerals, and it would be the same if those that are not finite had other texts. -/
structure SpellsFinitely (value : Value) : Prop where
  numeric : ∀ x, value.Holds x → Layout.IsNumeric (Layout.json.text x)
  textWith_eq : ∀ number : Double → List Char,
    (∀ x, x.isFinite → number x = Layout.json.text x) → value.textWith number = value.toText

/-- A finite value is spelled with finite numbers only. -/
theorem IsFinite.spellsFinitely {value : Value} (h : value.IsFinite) : value.SpellsFinitely where
  numeric x hx := (Layout.isNumeric_text_iff _).mpr (h x hx)
  textWith_eq number hnumber := by
    cases value with
    | float x => rw [textWith, toText, hnumber x (isFinite_float.mp h)]
    | fragment json =>
      rw [textWith, toText, Json.render, json.textWith_eq_text .compact 0]
      exact fun x hx => hnumber x (h x hx)
    | _ => rfl

end Value

end JsonTemplate
