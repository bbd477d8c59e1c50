import JsonTemplate.Json.Printer
import JsonTemplate.Text.Blank

/-!
# Values of expressions

Evaluating an expression gives a scalar or a fragment of JSON; arrays and objects are
fragments. Numbers combine with numbers. With a text on either side, `+` and `*` work on the
integers that both sides read as, and `+` joins the two texts where one does not. A result
that is no 64-bit integer, or no finite double, is an error.
-/

namespace JsonTemplate

/-- The kinds of values that error messages tell apart. -/
inductive ValueType where
  | integer | float | string | boolean | null | array | object | json
deriving DecidableEq, Repr

namespace ValueType

/-- The name of a type in errors. -/
def text : ValueType → String
  | integer => "integer"
  | float => "float"
  | string => "string"
  | boolean => "boolean"
  | null => "null"
  | array => "array"
  | object => "object"
  | json => "json"

end ValueType

/-- What a single operand is needed for. -/
inductive OperandUse where
  | negation
  | loopBound
  | loopStep
deriving DecidableEq, Repr

namespace OperandUse

/-- The name of a use of an operand in errors. -/
def text : OperandUse → String
  | negation => "-"
  | loopBound => "for"
  | loopStep => "step"

end OperandUse

/-- Why an expression has no value. -/
inductive EvalError where
  | unboundVariable (name : String)
  | unresolvedPath (path : List Accessor)
  | thisOutsideObject
  | operandTypes (operator : Operator) (left right : ValueType)
  | operandType (use : OperandUse) (operand : ValueType)
  | divisionByZero
  /-- The sign says which operation overflowed; a negation has the sign of a subtraction. -/
  | integerOverflow (sign : Operator)
  | nonFiniteNumber
  | zeroStep
  | breakOutsideLoop
  | continueOutsideLoop
deriving DecidableEq, Repr

namespace EvalError

/-- The text of an evaluation error as it is reported. -/
def message : EvalError → String
  | unboundVariable name => "Unbound variable '" ++ name ++ "'"
  | unresolvedPath path =>
    "Path '" ++ Accessor.pathText path ++ "' does not exist in the object being built"
  | thisOutsideObject => "'this' can only be used inside a callable block of an object member"
  | operandTypes operator left right =>
    "Unsupported operand types for '" ++ operator.text ++ "': " ++ left.text ++ " and " ++
      right.text
  | operandType use operand =>
    "Unsupported operand type for '" ++ use.text ++ "': " ++ operand.text
  | divisionByZero => "Division by zero"
  | integerOverflow sign => "Integer overflow in '" ++ sign.text ++ "'"
  | nonFiniteNumber => "Number is not representable in JSON"
  | zeroStep => "Loop step must not be zero"
  | breakOutsideLoop => "'break' outside of a loop"
  | continueOutsideLoop => "'continue' outside of a loop"

end EvalError

/-- The value of an expression. -/
inductive Value where
  | integer (value : Int64)
  | float (value : Double)
  | text (value : String)
  | boolean (value : Bool)
  | null
  | fragment (json : Json)
deriving Repr, BEq

namespace Json

/-- Whether a condition that gives this value holds. -/
def isTruthy : Json → Bool
  | null => false
  | boolean value => value
  | integer value => value != 0
  | float value => !value.isZero
  | string text => !text.isEmpty
  | array items => !items.isEmpty
  | object members => !members.isEmpty

end Json

namespace Value

/-- A JSON value as the value of an expression. -/
def ofJson : Json → Value
  | .null => null
  | .boolean value => boolean value
  | .integer value => integer value
  | .float value => float value
  | .string value => text value
  | .array items => fragment (.array items)
  | .object members => fragment (.object members)

/-- The JSON value of an expression; a double must be finite. -/
def toJson : Value → Except EvalError Json
  | integer value => .ok (.integer value)
  | float value => if value.isFinite then .ok (.float value) else .error .nonFiniteNumber
  | text value => .ok (.string value)
  | boolean value => .ok (.boolean value)
  | null => .ok .null
  | fragment json => .ok json

/-- The text of a value in a concatenation: a text itself, and any other value as JSON. -/
def toText : Value → String
  | integer value => .ofList (integerText value.toInt)
  | float value => .ofList (Layout.json.text value)
  | text value => value
  | boolean value => if value then "true" else "false"
  | null => "null"
  | fragment json => .ofList (json.render .compact)

/-- Whether a condition with this value holds: zero, empty, `false` and `null` do not. -/
def isTruthy : Value → Bool
  | integer value => value != 0
  | float value => !value.isZero
  | text value => !value.isEmpty
  | boolean value => value
  | null => false
  | fragment json => json.isTruthy

/-- The type of a value as errors name it. -/
def type : Value → ValueType
  | integer _ => .integer
  | float _ => .float
  | text _ => .string
  | boolean _ => .boolean
  | null => .null
  | fragment (.array _) => .array
  | fragment (.object _) => .object
  | fragment _ => .json

/-- The integer that a loop needs. -/
def asInteger (use : OperandUse) : Value → Except EvalError Int64
  | integer value => .ok value
  | other => .error (.operandType use other.type)

/-- Whether a value is a text. -/
def isText : Value → Bool
  | text _ => true
  | _ => false

/-- The double that a number is or converts to. -/
def asDouble? : Value → Option Double
  | integer value => some (.ofInt value.toInt)
  | float value => some value
  | _ => none

/-- The whole part of a double in the range of 64-bit integers. -/
def wholePart? (x : Double) : Option Int64 :=
  let bound : Int := 2 ^ 63 * Double.unitsInOne
  if x.isFinite ∧ -bound ≤ x.signedUnits ∧ x.signedUnits < bound then integer? x.truncate
  else none

/-- The integer that a value reads as: itself, the whole part of a double, or what a text
spells between blanks. -/
def readInteger? : Value → Option Int64
  | integer value => some value
  | float value => wholePart? value
  | text value => do integer? (← readSigned? (trimBlanks value.toList))
  | _ => none

/-- A whole number as a value, if it is a 64-bit integer. -/
def ofWhole (sign : Operator) (n : Int) : Except EvalError Value :=
  match integer? n with
  | some value => .ok (integer value)
  | none => .error (.integerOverflow sign)

/-- A double as a value, if it is finite. -/
def ofDouble (x : Double) : Except EvalError Value :=
  if x.isFinite then .ok (float x) else .error .nonFiniteNumber

/-- The refusal of two operands. -/
def refuse (operator : Operator) (left right : Value) : Except EvalError Value :=
  .error (.operandTypes operator left.type right.type)

/-- Two numbers combined: integers exactly, and other pairs as doubles. -/
def arithmetic (operator : Operator) (onIntegers : Int → Int → Int)
    (onDoubles : Double → Double → Double) (left right : Value) : Except EvalError Value :=
  match left, right with
  | integer l, integer r => ofWhole operator (onIntegers l.toInt r.toInt)
  | _, _ =>
    match left.asDouble?, right.asDouble? with
    | some l, some r => ofDouble (onDoubles l r)
    | _, _ => refuse operator left right

/-- The sum; with a text, the sum of the integers that both read as, or the joined texts. -/
def add (left right : Value) : Except EvalError Value :=
  if left.isText || right.isText then
    match left.readInteger?, right.readInteger? with
    | some l, some r => ofWhole .add (l.toInt + r.toInt)
    | _, _ => .ok (text (left.toText ++ right.toText))
  else arithmetic .add (· + ·) Double.add left right

/-- The difference of two values. -/
def sub (left right : Value) : Except EvalError Value :=
  arithmetic .sub (· - ·) Double.sub left right

/-- The product; with a text, the product of the integers that both read as. -/
def mul (left right : Value) : Except EvalError Value :=
  if left.isText || right.isText then
    match left.readInteger?, right.readInteger? with
    | some l, some r => ofWhole .mul (l.toInt * r.toInt)
    | _, _ => refuse .mul left right
  else arithmetic .mul (· * ·) Double.mul left right

/-- Whether a value is a zero. -/
def isZero : Value → Bool
  | integer value => value == 0
  | float value => value.isZero
  | _ => false

/-- The quotient: of integers an integer where the division is exact, and otherwise a double.
A zero divisor is refused before anything else. -/
def div (left right : Value) : Except EvalError Value :=
  if right.isZero then .error .divisionByZero
  else
    match left, right with
    | integer l, integer r =>
      if r.toInt ∣ l.toInt then ofWhole .div (l.toInt / r.toInt)
      else ofDouble ((Double.ofInt l.toInt).div (.ofInt r.toInt))
    | _, _ =>
      match left.asDouble?, right.asDouble? with
      | some l, some r => ofDouble (l.div r)
      | _, _ => refuse .div left right

/-- A value with its sign changed. -/
def neg : Value → Except EvalError Value
  | integer value => ofWhole .sub (-value.toInt)
  | float value => .ok (float value.neg)
  | other => .error (.operandType .negation other.type)

/-- What an operator gives on two values. -/
def apply : Operator → Value → Value → Except EvalError Value
  | .add => add
  | .sub => sub
  | .mul => mul
  | .div => div

end Value

end JsonTemplate
