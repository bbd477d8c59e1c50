import JsonTemplate.Value

/-!
# Environments

The bindings made while a block runs, the newest first. A name is looked up from the newest
binding on, so binding it again hides the older value without removing it.
-/

namespace JsonTemplate

/-- Names with their values, the newest binding first. -/
structure Environment where
  bindings : List (String × Value)
deriving Repr, BEq

namespace Environment

/-- The environment without bindings. -/
def empty : Environment := ⟨[]⟩

/-- Binds a name. -/
def define (environment : Environment) (name : String) (value : Value) : Environment :=
  ⟨(name, value) :: environment.bindings⟩

/-- The newest value of a name. -/
def lookup? (environment : Environment) (name : String) : Option Value :=
  environment.bindings.lookup name

end Environment

end JsonTemplate
