import JsonTemplate.Parser.Shape
import JsonTemplate.Proofs.Lookahead

/-!
# Outcomes of reading

What a rule does is described by two properties: one of the value read and the tokens left, and
one of the failure. Nothing is said about positions, so tokens count by their kinds.
-/

namespace JsonTemplate

/-- The kinds of tokens. -/
def kinds (tokens : List Token) : List TokenKind := tokens.map (·.kind)

/-- The kinds of tokens are those of the first one and the others. -/
@[simp] theorem kinds_cons (token : Token) (tokens : List Token) :
    kinds (token :: tokens) = token.kind :: kinds tokens := rfl

/-- Tokens whose first kind is known start with a token of that kind. -/
theorem kinds_eq_cons_iff {tokens : List Token} {kind : TokenKind} {rest : List TokenKind} :
    kinds tokens = kind :: rest ↔
      ∃ span more, tokens = ⟨kind, span⟩ :: more ∧ kinds more = rest := by
  constructor
  · intro h
    cases tokens with
    | nil => cases h
    | cons token more =>
      obtain ⟨hkind, hmore⟩ := List.cons.inj h
      exact ⟨token.span, more, by rw [← hkind], hmore⟩
  · rintro ⟨span, more, rfl, rfl⟩
    rfl

/-- Every list of kinds is that of some tokens. -/
theorem exists_kinds_eq (expected : List TokenKind) : ∃ tokens, kinds tokens = expected := by
  refine ⟨expected.map (⟨·, ⟨0, 0⟩⟩), ?_⟩
  rw [kinds, List.map_map]
  exact List.map_id _

/-- A reading that succeeds with the one property or fails with the other. -/
def Settles {α : Type} {bound : Nat} (P : α → List Token → Prop) (E : Failure → Prop) :
    Reading α bound → Prop
  | .ok parsed => P parsed.value parsed.rest
  | .error failure => E failure

/-- Whatever is read has a property. -/
abbrev Yields {α : Type} {bound : Nat} (P : α → List Token → Prop) (reading : Reading α bound) :
    Prop :=
  Settles P (fun _ => True) reading

/-- Something is read, and it has a property. -/
abbrev Accepts {α : Type} {bound : Nat} (P : α → List Token → Prop)
    (reading : Reading α bound) : Prop :=
  Settles P (fun _ => False) reading

section

variable {α β : Type} {bound wider : Nat} {P : α → List Token → Prop}
  {Q : β → List Token → Prop} {E : Failure → Prop} {reading : Reading α bound}

/-- A reading that gives something settles by what it gives. -/
theorem settles_ok {parsed : Parsed α bound} (h : P parsed.value parsed.rest) :
    Settles P E (.ok parsed : Reading α bound) := h

/-- What a reading settles may be weakened. -/
theorem Settles.mono {P' : α → List Token → Prop} {E' : Failure → Prop}
    (h : Settles P E reading) (hread : ∀ value rest, P value rest → P' value rest)
    (hfail : ∀ failure, E failure → E' failure) : Settles P' E' reading := by
  cases reading with
  | ok parsed => exact hread _ _ h
  | error failure => exact hfail _ h

/-- Two readings in a row settle what the second one settles. -/
theorem Settles.bind {next : Parsed α bound → Reading β wider} (h : Settles P E reading)
    (hnext : ∀ parsed, P parsed.value parsed.rest → Settles Q E (next parsed)) :
    Settles Q E (reading >>= next) := by
  cases reading with
  | ok parsed => exact hnext parsed h
  | error failure => exact h

/-- A reading whose result is changed settles what holds of the changed one. -/
theorem Settles.map {next : Parsed α bound → Parsed β wider} (h : Settles P E reading)
    (hnext : ∀ parsed, P parsed.value parsed.rest →
      Q (next parsed).value (next parsed).rest) :
    Settles Q E (next <$> reading) := by
  cases reading with
  | ok parsed => exact hnext parsed h
  | error failure => exact h

/-- A larger bound changes nothing. -/
theorem settles_widen_iff (h : bound ≤ wider) :
    Settles P E (reading >>= fun parsed => (.ok (parsed.widen h) : Reading α wider)) ↔
      Settles P E reading := by
  cases reading <;> exact Iff.rfl

/-- What a reading settles and what it yields hold together. -/
theorem Settles.and {P' : α → List Token → Prop} (h : Settles P E reading)
    (h' : Yields P' reading) :
    Settles (fun value rest => P value rest ∧ P' value rest) E reading := by
  cases reading with
  | ok parsed => exact ⟨h, h'⟩
  | error failure => exact h

/-- What is accepted has been read. -/
theorem Accepts.exists (h : Accepts P reading) :
    ∃ parsed, reading = .ok parsed ∧ P parsed.value parsed.rest := by
  cases reading with
  | ok parsed => exact ⟨parsed, rfl, h⟩
  | error failure => exact h.elim

/-- Every reading yields something. -/
theorem yields_true (reading : Reading α bound) : Yields (fun _ _ => True) reading := by
  cases reading <;> trivial

end

end JsonTemplate
