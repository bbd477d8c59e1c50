import JsonTemplate.Json
import JsonTemplate.Number.Integer
import JsonTemplate.Number.Layout
import JsonTemplate.Text.Escape

/-!
# The text of JSON values

A `Spacing` says what stands before each item of a container, before its closing bracket and
after the name of a member; with no spacing at all the text is compact, and the indented text
has one item on a line, two blanks deeper than the container. Empty containers are written
`[]` and `{}` in both.
-/

namespace JsonTemplate

/-- The blanks of a text: what precedes an item, or a closing bracket, at a depth of nesting,
and what separates a member's name from its value. -/
structure Spacing where
  line : Nat → List Char
  colon : List Char

namespace Spacing

/-- No blanks at all. -/
def compact : Spacing := ⟨fun _ => [], [':']⟩

/-- Each item on a line of its own, indented by two blanks for each level. -/
def indented : Spacing := ⟨fun depth => '\n' :: List.replicate (2 * depth) ' ', [':', ' ']⟩

end Spacing

/-- The texts of items between their brackets, each on its line. -/
def bracketed (spacing : Spacing) (depth : Nat) (opening closing : Char) :
    List (List Char) → List Char
  | [] => [opening, closing]
  | items =>
    opening :: spacing.line (depth + 1) ++
      (',' :: spacing.line (depth + 1)).intercalate items ++ spacing.line depth ++ [closing]

namespace Json

mutual

/-- The text of a value that stands at a depth of nesting. -/
def text (spacing : Spacing) (depth : Nat) : Json → List Char
  | null => ['n', 'u', 'l', 'l']
  | boolean true => ['t', 'r', 'u', 'e']
  | boolean false => ['f', 'a', 'l', 's', 'e']
  | integer value => integerText value.toInt
  | float value => Layout.json.text value
  | string text => quote text.toList
  | array items => bracketed spacing depth '[' ']' (itemTexts spacing (depth + 1) items)
  | object members => bracketed spacing depth '{' '}' (memberTexts spacing (depth + 1) members)

/-- The texts of the items of an array. -/
def itemTexts (spacing : Spacing) (depth : Nat) : List Json → List (List Char)
  | [] => []
  | item :: rest => text spacing depth item :: itemTexts spacing depth rest

/-- The texts of the members of an object, each with its name. -/
def memberTexts (spacing : Spacing) (depth : Nat) : List (String × Json) → List (List Char)
  | [] => []
  | (name, value) :: rest =>
    (quote name.toList ++ spacing.colon ++ text spacing depth value) ::
      memberTexts spacing depth rest

end

/-- The text of a whole value. -/
def render (spacing : Spacing) (value : Json) : List Char := text spacing 0 value

end Json

end JsonTemplate
