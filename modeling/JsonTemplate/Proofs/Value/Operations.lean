import JsonTemplate.Value

/-!
# What operations give

An operation on values gives a number or a text, never a fragment of JSON, or it fails with one of
the errors of the operations. Errors of names, of `this` and of statements are not among them.
-/

namespace JsonTemplate

/-- A property of the end of a computation: one of its result, or one of its error. -/
def Admits {α : Type} (E : EvalError → Prop) (P : α → Prop) : Except EvalError α → Prop
  | .ok result => P result
  | .error error => E error

/-- What is admitted may be weakened in errors and results. -/
theorem Admits.mono {α : Type} {D E : EvalError → Prop} {P Q : α → Prop}
    {result : Except EvalError α} (h : Admits D P result) (herror : ∀ error, D error → E error)
    (hresult : ∀ value, P value → Q value) : Admits E Q result := by
  cases result with
  | ok value => exact hresult value h
  | error error => exact herror error h

/-- Everything is admitted if nothing is asked for. -/
theorem admits_true {α : Type} (result : Except EvalError α) :
    Admits (fun _ => True) (fun _ => True) result := by
  cases result <;> trivial

/-- The errors of the operations on values. -/
def EvalError.IsOperation : EvalError → Prop
  | operandTypes _ _ _ | operandType .negation _ | divisionByZero | integerOverflow _
  | nonFiniteNumber => True
  | _ => False

namespace Value

/-- A value that is no fragment of JSON. -/
def IsScalar : Value → Prop
  | fragment _ => False
  | _ => True

/-- The end of an operation: a number or a text, or an error of the operations. -/
abbrev Operates (result : Except EvalError Value) : Prop :=
  Admits EvalError.IsOperation IsScalar result

/-- A whole number is an integer or an overflow. -/
theorem operates_ofWhole (sign : Operator) (n : Int) : Operates (ofWhole sign n) := by
  unfold ofWhole
  split <;> trivial

/-- A finite double is a float, and any other one an error of arithmetic. -/
theorem operates_ofDouble (x : Double) : Operates (ofDouble x) := by
  unfold ofDouble
  split <;> trivial

/-- Arithmetic fails with an error of operations only. -/
theorem operates_arithmetic (operator : Operator) (onIntegers : Int → Int → Int)
    (onDoubles : Double → Double → Double) (left right : Value) :
    Operates (arithmetic operator onIntegers onDoubles left right) := by
  unfold arithmetic
  split
  · exact operates_ofWhole _ _
  · split
    · exact operates_ofDouble _
    · trivial

/-- Addition fails with an error of operations only. -/
theorem operates_add (left right : Value) : Operates (add left right) := by
  unfold add
  split
  · split
    · exact operates_ofWhole _ _
    · trivial
  · exact operates_arithmetic _ _ _ _ _

/-- Multiplication fails with an error of operations only. -/
theorem operates_mul (left right : Value) : Operates (mul left right) := by
  unfold mul
  split
  · split
    · exact operates_ofWhole _ _
    · trivial
  · exact operates_arithmetic _ _ _ _ _

/-- Division fails with an error of operations only. -/
theorem operates_div (left right : Value) : Operates (div left right) := by
  unfold div
  split
  · trivial
  split
  · split
    · exact operates_ofWhole _ _
    · exact operates_ofDouble _
  · split
    · exact operates_ofDouble _
    · trivial

/-- Every operation fails with an error of operations only. -/
theorem operates_apply (operator : Operator) (left right : Value) :
    Operates (apply operator left right) := by
  cases operator with
  | add => exact operates_add left right
  | sub => exact operates_arithmetic _ _ _ _ _
  | mul => exact operates_mul left right
  | div => exact operates_div left right

/-- A change of sign fails with an error of operations only. -/
theorem operates_neg (operand : Value) : Operates operand.neg := by
  cases operand with
  | integer value => exact operates_ofWhole _ _
  | _ => trivial

/-- A conversion to JSON fails with an error of operations only. -/
theorem operates_toJson (value : Value) :
    Admits EvalError.IsOperation (fun _ => True) value.toJson := by
  cases value with
  | float value =>
    rw [toJson]
    split <;> trivial
  | _ => trivial

end Value

end JsonTemplate
