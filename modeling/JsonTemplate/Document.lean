import JsonTemplate.Evaluation.Ending
import JsonTemplate.Parser.Shape

/-!
# Documents

A document is a tree without `while`, as parsing gives it. Building it always comes to an end,
so the limit on the rounds of loops plays no part.
-/

namespace JsonTemplate

/-- The tree of a parsed template. -/
structure Document where
  root : Node
  whileFree : root.whileFree

namespace Document

/-- The document that tokens spell. -/
def ofTokens (tokens : List Token) : Except ParseError Document :=
  match h : parse tokens with
  | .ok root => .ok ⟨root, whileFree_of_parse h⟩
  | .error error => .error error

/-- Tokens that are parsed give a document. -/
theorem ofTokens_eq_ok {tokens : List Token} {root : Node} (h : parse tokens = .ok root) :
    ofTokens tokens = .ok ⟨root, whileFree_of_parse h⟩ := by
  unfold ofTokens
  split
  · rename_i other hother
    cases h.symm.trans hother
    rfl
  · rename_i error herror
    cases h.symm.trans herror

/-- Tokens that are not parsed give the error of the parser. -/
theorem ofTokens_eq_error {tokens : List Token} {error : ParseError}
    (h : parse tokens = .error error) : ofTokens tokens = .error error := by
  unfold ofTokens
  split
  · rename_i root hroot
    cases h.symm.trans hroot
  · rename_i other hother
    cases h.symm.trans hother
    rfl

/-- The JSON value that a document stands for. -/
def build (document : Document) : Except EvalError Json :=
  ((Interpreter.new.build 0 document.root).get
    (Interpreter.new.isSome_build 0 document.whileFree)).1

end Document

end JsonTemplate
