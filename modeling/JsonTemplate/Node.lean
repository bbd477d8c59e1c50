import JsonTemplate.Number.Integer
import JsonTemplate.Number.Double
import JsonTemplate.Scanner

/-!
# Syntax trees

A template is a tree of nodes. Objects, arrays and literals describe JSON directly; the other
nodes are expressions, which are evaluated first, and statements, which stand in callable
blocks.
-/

namespace JsonTemplate

/-- The binary operators. -/
inductive Operator where
  | add | sub | mul | div
deriving DecidableEq, Repr

namespace Operator

/-- The sign of an operator. -/
def text : Operator → String
  | add => "+"
  | sub => "-"
  | mul => "*"
  | div => "/"

/-- How tightly an operator binds: the greater, the tighter. -/
def precedence : Operator → Nat
  | add | sub => 1
  | mul | div => 2

end Operator

/-- One step of a path into the object being built. -/
inductive Accessor where
  | field (name : String)
  | index (position : Nat)
deriving DecidableEq, Repr

namespace Accessor

/-- The text of an accessor as it is written in a path. -/
def text : Accessor → String
  | field name => "." ++ name
  | index position => "[" ++ decimalString position ++ "]"

/-- The text of a path from the object being built. -/
def pathText (path : List Accessor) : String := path.foldl (· ++ ·.text) "this"

end Accessor

/-- A node of a template. -/
inductive Node where
  | object (members : List (String × Node))
  | array (elements : List Node)
  | string (text : String)
  | integer (value : Int64)
  | float (value : Double)
  | boolean (value : Bool)
  | null
  | lookup (name : String)
  | assign (name : String) (value : Node)
  | binary (operator : Operator) (left right : Node)
  | negate (operand : Node)
  /-- The object being built, or what a path reaches in it. -/
  | this (path : List Accessor)
  /-- A callable block in value position, a sequence of statements in a statement's place. -/
  | block (statements : List Node)
  | return_ (value : Node)
  /-- The body of the first condition that holds, or the alternative. -/
  | cond (cases : List (Node × Node)) (otherwise : Option Node)
  | while_ (condition body : Node)
  | for_ (name : String) (start stop : Node) (step : Option Node) (body : Node)
  | break_
  | continue_
deriving Repr, BEq

namespace Node

mutual

/-- Whether no `while` loop occurs in a tree. All other nodes come to an end by themselves. -/
def whileFree : Node → Bool
  | object members => membersWhileFree members
  | array elements => allWhileFree elements
  | assign _ value => whileFree value
  | binary _ left right => whileFree left && whileFree right
  | negate operand => whileFree operand
  | block statements => allWhileFree statements
  | return_ value => whileFree value
  | cond cases otherwise => casesWhileFree cases && optionWhileFree otherwise
  | while_ _ _ => false
  | for_ _ start stop step body =>
    whileFree start && whileFree stop && optionWhileFree step && whileFree body
  | string _ | integer _ | float _ | boolean _ | null | lookup _ | this _ | break_
  | continue_ => true

/-- Whether no node of a list contains a loop `while`. -/
def allWhileFree : List Node → Bool
  | [] => true
  | node :: rest => whileFree node && allWhileFree rest

/-- Whether no member's value contains a loop `while`. -/
def membersWhileFree : List (String × Node) → Bool
  | [] => true
  | (_, node) :: rest => whileFree node && membersWhileFree rest

/-- Whether no condition and no body of some cases contains a loop `while`. -/
def casesWhileFree : List (Node × Node) → Bool
  | [] => true
  | (condition, body) :: rest => whileFree condition && whileFree body && casesWhileFree rest

/-- Whether a node that may be missing contains no loop `while`. -/
def optionWhileFree : Option Node → Bool
  | none => true
  | some node => whileFree node

end

end Node

end JsonTemplate
