import JsonTemplate.Compile
import JsonTemplate.Proofs.Evaluation.Invariants
import JsonTemplate.Proofs.Json.Canonical
import JsonTemplate.Proofs.Parser.Completeness
import JsonTemplate.Proofs.Value.Operations

/-!
# The values of templates

Whatever a template computes, its value is canonical, and it is an object or an array because
the root of the tree is one. Operators never give a fragment of JSON, so fragments only come
from the containers that a template builds, part by part.
-/

namespace JsonTemplate

namespace Value

/-- A value whose fragment, if it is one, is canonical. -/
def Canonical : Value → Prop
  | fragment json => json.Canonical
  | _ => True

/-- A value that is no container is canonical. -/
theorem IsScalar.canonical {value : Value} (h : value.IsScalar) : value.Canonical := by
  cases value with
  | fragment json => exact h.elim
  | _ => trivial

/-- A value made from canonical JSON is canonical. -/
theorem canonical_ofJson {json : Json} (h : json.Canonical) : (ofJson json).Canonical := by
  cases json with
  | array | object => exact h
  | _ => trivial

/-- A canonical value is canonical JSON; a double that is not finite is none at all. -/
theorem canonical_toJson {value : Value} (h : value.Canonical) :
    IfOk Json.Canonical value.toJson := by
  cases value with
  | integer value => exact .integer value
  | float value =>
    rw [toJson]
    split
    · rename_i hfinite
      exact .float hfinite
    · trivial
  | text value => exact .string value
  | boolean value => exact .boolean value
  | null => exact .null
  | fragment json => exact h

end Value

/-- The scalar result of an operation is canonical. -/
theorem canonical_of_operates {result : Except EvalError Value} (h : Value.Operates result) :
    IfOk Value.Canonical result := by
  cases result with
  | ok value => exact Value.IsScalar.canonical h
  | error error => trivial

/-- All operations keep values and JSON values canonical. -/
theorem stable_canonical : Stable Value.Canonical Json.Canonical where
  integer _ := trivial
  text _ := trivial
  boolean _ := trivial
  null := trivial
  ofJson _ := Value.canonical_ofJson
  toJson _ := Value.canonical_toJson
  apply operator left right _ _ := canonical_of_operates (Value.operates_apply operator left right)
  neg operand _ := canonical_of_operates (Value.operates_neg operand)
  array _ := .array
  object_nil := Json.canonicalMembers_nil
  insertMember name _ _ hvalue hmembers := Json.CanonicalMembers.insertMember hmembers hvalue name
  walk? _ _ _ := Json.Canonical.walk?

/-- An object or an array. -/
def Node.IsContainer : Node → Prop
  | object _ | array _ => True
  | _ => False

/-- What is read after an opening bracket or brace is an array or an object. -/
theorem Derives.isContainer {phrase : Phrase} {levels : Nat} {tree : Node}
    {input rest : List TokenKind} (h : Derives phrase levels tree input rest)
    (hphrase : phrase = .object ∨ phrase = .array) : tree.IsContainer := by
  induction h with
  | objectEnd | objectMember | arrayEnd | arrayElement => trivial
  | objectComma _ ih | arrayComma _ ih => exact ih hphrase
  | _ => simp at hphrase

/-- The root of a document is an array or an object. -/
theorem DocumentDerives.isContainer {tree : Node} {input : List TokenKind}
    (h : DocumentDerives tree input) : tree.IsContainer := by
  cases h with
  | object hobject => exact hobject.isContainer (Or.inl rfl)
  | array harray => exact harray.isContainer (Or.inr rfl)

/-- What is parsed is an array or an object. -/
theorem isContainer_of_parse {tokens : List Token} {root : Node} (h : parse tokens = .ok root) :
    root.IsContainer := by
  rw [parse_eq_ok_iff_document, Grammar.document_eq_ok_iff] at h
  exact h.isContainer

/-- Built members make an object. -/
theorem keeps_buildMembers_isContainer (scope : Scope) (sofar : List (String × Json))
    (members : List (String × Meaning)) :
    (Meaning.buildMembers scope sofar members).Keeps (fun _ => True) Json.IsContainer := by
  induction members generalizing sofar with
  | nil => exact .pure trivial
  | cons member rest ih =>
    exact .bind (P := fun _ => True) (fun _ _ result _ _ => ⟨trivial, ifOk_true result⟩)
      fun value _ => ih _

/-- An object or array in the tree is built as one. -/
theorem Node.keeps_build_isContainer {node : Node} (h : node.IsContainer) (rounds : Nat)
    (scope : Scope) (this : This) :
    ((node.meaning rounds).build scope this).Keeps (fun _ => True) Json.IsContainer := by
  cases node with
  | object members => exact keeps_buildMembers_isContainer _ _ _
  | array elements =>
    exact .bind (P := fun _ => True) (fun _ _ result _ _ => ⟨trivial, ifOk_true result⟩)
      fun items _ => .pure trivial
  | _ => exact h.elim

/-- A document's value has the property of all that its root is built as. -/
theorem Document.build_of_keeps {document : Document} {json : Json} {I : Environment → Prop}
    {P : Json → Prop} (h : document.build = .ok json) (hempty : I .empty)
    (hkeeps : ((document.root.meaning 0).build .root none).Keeps I P) : P json := by
  obtain ⟨outcome, hbuild⟩ := Option.isSome_iff_exists.mp
    (Interpreter.new.isSome_build 0 document.whileFree)
  simp only [Document.build, hbuild, Option.get_some] at h
  obtain ⟨⟨result, after⟩, hrun, rfl⟩ := Option.map_eq_some_iff.mp hbuild
  dsimp only at h
  cases h
  exact (hkeeps _ hempty _ _ hrun).2

end JsonTemplate
