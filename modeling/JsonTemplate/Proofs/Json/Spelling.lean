import JsonTemplate.Json
import JsonTemplate.Proofs.Scanner.TokenGrammar

/-!
# Spellings of JSON values

A JSON text as data: every choice that the grammar of RFC 8259 leaves to a writer is a field,
from the blanks around each sign to the escapes in each string and the spelling of each number.
`text` puts the choices together and `value` says what the text means. What the grammar forbids
can not be built.

A repeated name keeps the place where it first stands and the value it is given last. A number
without fraction and exponent is a 64-bit integer and every other number a double. The texts
whose strings and numbers have such a value are the supported ones.
-/

namespace JsonTemplate

/-- Blanks between signs: spaces, tabs and ends of line. -/
structure Whitespace where
  text : List Char
  all_blank : ∀ c ∈ text, c ∈ [' ', '\t', '\n', '\r']

/-- A hexadecimal digit in one of its two cases. -/
structure Nibble where
  value : Fin 16
  upper : Bool

namespace Nibble

/-- The digit with which four bits are written. -/
def char (nibble : Nibble) : Char :=
  if nibble.upper then (Nat.digitChar nibble.value).toUpper else Nat.digitChar nibble.value

end Nibble

/-- The letters and signs that may follow a backslash, with what they stand for. -/
def escapes : List (Char × Char) :=
  [('"', '"'), ('\\', '\\'), ('/', '/'), ('b', '\x08'), ('f', '\x0c'), ('n', '\n'), ('r', '\r'),
    ('t', '\t')]

/-- How one character of a string is written. -/
inductive StringUnit where
  | plain (c : Char) (unescaped : ' ' ≤ c ∧ c ≠ '"' ∧ c ≠ '\\')
  | escaped (letter decoded : Char) (escape : (letter, decoded) ∈ escapes)
  | numbered (first second third fourth : Nibble)

namespace StringUnit

/-- How a unit of a string is spelled. -/
def text : StringUnit → List Char
  | plain c _ => [c]
  | escaped letter _ _ => ['\\', letter]
  | numbered first second third fourth =>
    ['\\', 'u', first.char, second.char, third.char, fourth.char]

/-- The number of a numbered character. -/
def number (first second third fourth : Nibble) : Nat :=
  16 * (16 * (16 * first.value + second.value) + third.value) + fourth.value

/-- The character for which a unit of a string stands. -/
def value : StringUnit → Char
  | plain c _ => c
  | escaped _ decoded _ => decoded
  | numbered first second third fourth => .ofNat (number first second third fourth)

/-- A number that is not half of a surrogate pair. -/
def Supported : StringUnit → Prop
  | numbered first second third fourth =>
    ¬(0xD800 ≤ number first second third fourth ∧ number first second third fourth ≤ 0xDFFF)
  | _ => True

end StringUnit

/-- The text between the quotes of a string. -/
def unitsText (units : List StringUnit) : List Char := units.flatMap (·.text)

/-- The string that is written. -/
def unitsValue (units : List StringUnit) : String := .ofList (units.map (·.value))

/-- A number with its sign: no leading zero, and digits after a point. -/
structure NumberSpelling where
  negative : Bool
  numeral : Numeral
  wellFormed : numeral.WellFormed
  whole_eq : numeral.whole.head? = some '0' → numeral.whole = ['0']
  fraction_ne_nil : ∀ digits ∈ numeral.fraction, digits ≠ []

namespace NumberSpelling

/-- How a number is spelled. -/
def text (number : NumberSpelling) : List Char :=
  (if number.negative then ['-'] else []) ++ number.numeral.text

/-- The whole number that digits without fraction and exponent spell. -/
def integer (number : NumberSpelling) : Int :=
  if number.negative then -(readDigits number.numeral.whole : Int)
  else readDigits number.numeral.whole

/-- The double that the unsigned numeral spells, with the sign. -/
def double (number : NumberSpelling) : Double :=
  if number.negative then number.numeral.double.neg else number.numeral.double

/-- The number for which a spelling stands. -/
def value (number : NumberSpelling) : Json :=
  if number.numeral.isFloat then .float number.double else .integer (.ofInt number.integer)

/-- The value is a 64-bit integer or a finite double. -/
def Supported (number : NumberSpelling) : Prop :=
  if number.numeral.isFloat then number.numeral.double.isFinite = true
  else -2 ^ 63 ≤ number.integer ∧ number.integer < 2 ^ 63

/-- A minus sign, except that of the least integer. -/
def IsNegated (number : NumberSpelling) : Prop :=
  number.negative ∧ (number.numeral.isFloat ∨ number.integer ≠ -2 ^ 63)

end NumberSpelling

namespace Json

/-- The members that members with repeated names stand for: each name once, where it first
stands, with the value it is given last. -/
def mergeMembers (members : List (String × Json)) : List (String × Json) :=
  (members.map (·.1)).eraseDups.filterMap fun name =>
    (members.reverse.lookup name).map (name, ·)

end Json

/-- What is spelled: a value, the items between two brackets or the members between two braces,
at least one of them. -/
inductive Part where
  | value | items | members

/-- A way to write a part of a JSON text. -/
inductive Spelling : Part → Type
  | null : Spelling .value
  | boolean (value : Bool) : Spelling .value
  | number (spelled : NumberSpelling) : Spelling .value
  | string (units : List StringUnit) : Spelling .value
  | emptyArray (inside : Whitespace) : Spelling .value
  | array (items : Spelling .items) : Spelling .value
  | emptyObject (inside : Whitespace) : Spelling .value
  | object (members : Spelling .members) : Spelling .value
  | lastItem (before : Whitespace) (value : Spelling .value) (after : Whitespace) :
      Spelling .items
  | item (before : Whitespace) (value : Spelling .value) (after : Whitespace)
      (rest : Spelling .items) : Spelling .items
  | lastMember (before : Whitespace) (name : List StringUnit) (beforeColon afterColon : Whitespace)
      (value : Spelling .value) (after : Whitespace) : Spelling .members
  | member (before : Whitespace) (name : List StringUnit) (beforeColon afterColon : Whitespace)
      (value : Spelling .value) (after : Whitespace) (rest : Spelling .members) :
      Spelling .members

/-- What parts stand for. -/
abbrev Part.Value : Part → Type
  | value => Json
  | items => List Json
  | members => List (String × Json)

/-- A string between its quotes. -/
def quoted (units : List StringUnit) : List Char := '"' :: unitsText units ++ ['"']

namespace Spelling

/-- The text of a part, that of the items and members without the brackets around them. -/
def text : {part : Part} → Spelling part → List Char
  | _, null => ['n', 'u', 'l', 'l']
  | _, boolean true => ['t', 'r', 'u', 'e']
  | _, boolean false => ['f', 'a', 'l', 's', 'e']
  | _, number spelled => spelled.text
  | _, string units => quoted units
  | _, emptyArray inside => '[' :: inside.text ++ [']']
  | _, array items => '[' :: items.text ++ [']']
  | _, emptyObject inside => '{' :: inside.text ++ ['}']
  | _, object members => '{' :: members.text ++ ['}']
  | _, lastItem before value after => before.text ++ value.text ++ after.text
  | _, item before value after rest =>
    before.text ++ value.text ++ after.text ++ ',' :: rest.text
  | _, lastMember before name beforeColon afterColon value after =>
    before.text ++ quoted name ++ beforeColon.text ++ ':' :: afterColon.text ++ value.text ++
      after.text
  | _, member before name beforeColon afterColon value after rest =>
    before.text ++ quoted name ++ beforeColon.text ++ ':' :: afterColon.text ++ value.text ++
      after.text ++ ',' :: rest.text

/-- What a part stands for, repeated names included in the members. -/
def value : {part : Part} → Spelling part → part.Value
  | _, null => Json.null
  | _, boolean value => Json.boolean value
  | _, number spelled => spelled.value
  | _, string units => Json.string (unitsValue units)
  | _, emptyArray _ => Json.array []
  | _, array items => Json.array items.value
  | _, emptyObject _ => Json.object []
  | _, object members => Json.object (Json.mergeMembers members.value)
  | _, lastItem _ value _ => [value.value]
  | _, item _ value _ rest => (value.value :: rest.value : List Json)
  | _, lastMember _ name _ _ value _ => [(unitsValue name, value.value)]
  | _, member _ name _ _ value _ rest =>
    ((unitsValue name, value.value) :: rest.value : List (String × Json))

/-- All strings and numbers of a part have a value. -/
def Supported : {part : Part} → Spelling part → Prop
  | _, number spelled => spelled.Supported
  | _, string units => ∀ unit ∈ units, unit.Supported
  | _, array items => items.Supported
  | _, object members => members.Supported
  | _, lastItem _ value _ => value.Supported
  | _, item _ value _ rest => value.Supported ∧ rest.Supported
  | _, lastMember _ name _ _ value _ => (∀ unit ∈ name, unit.Supported) ∧ value.Supported
  | _, member _ name _ _ value _ rest =>
    (∀ unit ∈ name, unit.Supported) ∧ value.Supported ∧ rest.Supported
  | _, null | _, boolean _ | _, emptyArray _ | _, emptyObject _ => True

/-- Where a value stands in a part: the level is the number of containers around it. -/
inductive At (inner : Spelling .value) : Nat → {part : Part} → Spelling part → Prop
  | here : At inner 0 inner
  | array {level : Nat} {items : Spelling .items} :
      At inner level items → At inner (level + 1) (array items)
  | object {level : Nat} {members : Spelling .members} :
      At inner level members → At inner (level + 1) (object members)
  | lastItem {level : Nat} {before after : Whitespace} {value : Spelling .value} :
      At inner level value → At inner level (lastItem before value after)
  | item {level : Nat} {before after : Whitespace} {value : Spelling .value}
      {rest : Spelling .items} :
      At inner level value → At inner level (item before value after rest)
  | laterItem {level : Nat} {before after : Whitespace} {value : Spelling .value}
      {rest : Spelling .items} :
      At inner level rest → At inner level (item before value after rest)
  | lastMember {level : Nat} {before beforeColon afterColon after : Whitespace}
      {name : List StringUnit} {value : Spelling .value} :
      At inner level value →
      At inner level (lastMember before name beforeColon afterColon value after)
  | member {level : Nat} {before beforeColon afterColon after : Whitespace}
      {name : List StringUnit} {value : Spelling .value} {rest : Spelling .members} :
      At inner level value →
      At inner level (member before name beforeColon afterColon value after rest)
  | laterMember {level : Nat} {before beforeColon afterColon after : Whitespace}
      {name : List StringUnit} {value : Spelling .value} {rest : Spelling .members} :
      At inner level rest →
      At inner level (member before name beforeColon afterColon value after rest)

/-- An array or an object. -/
def IsContainer : Spelling .value → Prop
  | emptyArray _ | array _ | emptyObject _ | object _ => True
  | _ => False

/-- The values that count against the limit on nesting: containers, and numbers with a minus
sign other than the least integer. -/
def IsNested : Spelling .value → Prop
  | emptyArray _ | array _ | emptyObject _ | object _ => True
  | number spelled => spelled.IsNegated
  | _ => False

end Spelling

/-- A JSON text whose root is a container. -/
structure DocumentSpelling where
  before : Whitespace
  root : Spelling .value
  root_isContainer : root.IsContainer
  after : Whitespace

namespace DocumentSpelling

/-- The text of a document that is spelled out. -/
def text (document : DocumentSpelling) : String :=
  .ofList (document.before.text ++ document.root.text ++ document.after.text)

/-- No container and no negated number has more than 128 containers around it. -/
def IsShallow (document : DocumentSpelling) : Prop :=
  ∀ level (inner : Spelling .value), inner.At level document.root → inner.IsNested → level ≤ 128

end DocumentSpelling

end JsonTemplate
