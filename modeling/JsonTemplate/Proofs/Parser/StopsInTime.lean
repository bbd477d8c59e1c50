import JsonTemplate.Proofs.Parser.Completeness

/-!
# Readers that stop in time

What a rule makes of tokens is decided by the tokens it takes and the next one: whatever follows
that one, the rule reads the same value or fails with the same fault, at the same token. The
tokens in front of that one are never at fault: a rule that fails there succeeds when other
tokens stand in its place, and a rule that succeeds also does before any token that the grammar
lets follow its phrase.

Both parts are one property of a reader, because the completion of a phrase that fails in its
second half needs the first half to be read as before. Where the second half has taken nothing
yet, the token that decided the first half is gone from the completion, and it has to be said
what closes the phrase there.
-/

namespace JsonTemplate

/-- What a rule makes of tokens: a value or a fault, and the tokens from the next or the offending
one on. -/
structure ParseOutcome (α : Type) where
  result : Except ParseFault α
  rest : List Token

namespace ParseOutcome

variable {α β : Type}

/-- A value was read, and the given tokens are left. -/
def read (value : α) (rest : List Token) : ParseOutcome α := ⟨.ok value, rest⟩

/-- The first of the given tokens is at fault. -/
def fail (fault : ParseFault) (rest : List Token) : ParseOutcome α := ⟨.error fault, rest⟩

/-- Goes on after a value. -/
def andThen (outcome : ParseOutcome α) (next : α → List Token → ParseOutcome β) : ParseOutcome β :=
  match outcome with
  | ⟨.ok value, rest⟩ => next value rest
  | ⟨.error fault, rest⟩ => fail fault rest

/-- An outcome with its value changed. -/
def map (f : α → β) (outcome : ParseOutcome α) : ParseOutcome β :=
  outcome.andThen fun value => read (f value)

/-- Only a value can be changed. -/
theorem exists_eq_read_of_map {f : α → β} {outcome : ParseOutcome α} {value : β} {rest : List Token}
    (h : outcome.map f = .read value rest) : ∃ before, outcome = .read before rest := by
  obtain ⟨result, left⟩ := outcome
  cases result with
  | ok before => exact ⟨before, congrArg (ParseOutcome.mk _) (congrArg ParseOutcome.rest h)⟩
  | error fault => cases h

end ParseOutcome

section

variable {α β : Type} {bound wider : Nat}

/-- The outcome of a reading, without the bound that shows that reading ends. -/
def outcomeOf : Reading α bound → ParseOutcome α
  | .ok parsed => .read parsed.value parsed.rest
  | .error failure => .fail failure.fault failure.rest

/-- The outcome of two readings in a row. -/
theorem outcomeOf_bind {reading : Reading α bound} {next : Parsed α bound → Reading β wider}
    {after : α → List Token → ParseOutcome β}
    (h : ∀ parsed, outcomeOf (next parsed) = after parsed.value parsed.rest) :
    outcomeOf (reading >>= next) = (outcomeOf reading).andThen after := by
  cases reading with
  | ok parsed => exact h parsed
  | error failure => rfl

/-- The outcome of a reading whose value is changed. -/
theorem outcomeOf_map {reading : Reading α bound} {next : Parsed α bound → Parsed β wider}
    {f : α → β}
    (h : ∀ parsed, (next parsed).value = f parsed.value ∧ (next parsed).rest = parsed.rest) :
    outcomeOf (next <$> reading) = (outcomeOf reading).map f := by
  cases reading with
  | ok parsed =>
    obtain ⟨hvalue, hrest⟩ := h parsed
    change ParseOutcome.read (next parsed).value (next parsed).rest = _
    rw [hvalue, hrest]
    rfl
  | error failure => rfl

/-- A weaker bound does not change the outcome. -/
theorem outcomeOf_widen {reading : Reading α bound} (h : bound ≤ wider) :
    outcomeOf ((·.widen h) <$> reading) = outcomeOf reading := by
  cases reading <;> rfl

/-- An outcome with a value comes from a reading that gives it. -/
theorem exists_parsed_of_outcomeOf {reading : Reading α bound} {value : α} {rest : List Token}
    (h : outcomeOf reading = .read value rest) :
    ∃ parsed, reading = .ok parsed ∧ parsed.value = value ∧ parsed.rest = rest := by
  cases reading with
  | ok parsed =>
    obtain ⟨hvalue, hrest⟩ := ParseOutcome.mk.inj h
    exact ⟨parsed, rfl, Except.ok.inj hvalue, hrest⟩
  | error failure => cases h

/-- An outcome with a fault comes from a reading that fails with it. -/
theorem eq_error_of_outcomeOf {reading : Reading α bound} {fault : ParseFault}
    {rest : List Token} (h : outcomeOf reading = .fail fault rest) :
    reading = .error ⟨fault, rest⟩ := by
  cases reading with
  | ok parsed => cases h
  | error failure =>
    cases h
    rfl

/-- A rule that succeeds takes a token. -/
theorem outcomeOf_rule_ne (rule : Rule α) (value : α) (input : List Token) :
    outcomeOf (rule input) ≠ .read value input := by
  intro h
  obtain ⟨parsed, -, -, hrest⟩ := exists_parsed_of_outcomeOf h
  have hlength := parsed.length_rest_lt
  rw [hrest] at hlength
  exact Nat.lt_irrefl _ hlength

end

/-- What is made of tokens, for all of them. -/
abbrev Reader (α : Type) := List Token → ParseOutcome α

/-- How a reader fares on some tokens, when a value may be followed by certain tokens. Those in
front of the offending token can be completed to a value. -/
inductive StopsInTime {α : Type} (follows : List Token → Prop) (reader : Reader α) :
    List Token → Prop
  | reads (front rest : List Token) (value : α) :
      (∀ other, other.head? = rest.head? ∨ follows other →
        reader (front ++ other) = .read value other) →
      StopsInTime follows reader (front ++ rest)
  | fails (front rest : List Token) (fault : ParseFault) (more : List Token) (value : α) :
      (∀ other, other.head? = rest.head? → reader (front ++ other) = .fail fault other) →
      (∀ other, follows other → reader (front ++ (more ++ other)) = .read value other) →
      StopsInTime follows reader (front ++ rest)

/-- The tokens with the same first token as given ones; without one, there are none. -/
theorem forall_head?_iff {rest : List Token} {P : List Token → Prop} :
    (∀ other, other.head? = rest.head? → P other) ↔
      match rest with
      | [] => P []
      | token :: _ => ∀ more, P (token :: more) := by
  cases rest with
  | nil =>
    refine ⟨fun h => h [] rfl, fun h other hother => ?_⟩
    rwa [List.head?_eq_none_iff.mp hother]
  | cons token rest =>
    refine ⟨fun h more => h _ rfl, fun h other hother => ?_⟩
    obtain ⟨more, rfl⟩ := List.head?_eq_some_iff.mp hother
    exact h more

namespace StopsInTime

variable {α β : Type} {follows follows' : List Token → Prop} {reader next : Reader α}
  {input front rest : List Token} {token : Token}

/-- A reader that stops in time does so also if less may follow. -/
theorem mono (h : StopsInTime follows reader input)
    (hfollows : ∀ rest, follows' rest → follows rest) : StopsInTime follows' reader input := by
  cases h with
  | reads front rest value hreads =>
    exact .reads front rest value fun other hother =>
      hreads other (hother.imp_right (hfollows other))
  | fails front rest fault more value hfails hmore =>
    exact .fails front rest fault more value hfails fun other hother =>
      hmore other (hfollows other hother)

/-- A token is taken, and no other is looked at. -/
theorem take (value : α) (h : ∀ other, reader (token :: other) = .read value other) :
    StopsInTime follows reader (token :: rest) :=
  .reads [token] rest value fun other _ => h other

/-- The first token is at fault, and other tokens are a value. -/
theorem refuse (fault : ParseFault) (more : List Token) (value : α)
    (hfails : ∀ other, other.head? = input.head? → reader other = .fail fault other)
    (hmore : ∀ other, follows other → reader (more ++ other) = .read value other) :
    StopsInTime follows reader input :=
  .fails [] input fault more value hfails hmore

/-- Tokens are taken whatever follows, and another reader goes on after them. -/
theorem prepend (front : List Token) (h : ∀ other, reader (front ++ other) = next other)
    (hnext : StopsInTime follows next rest) : StopsInTime follows reader (front ++ rest) := by
  cases hnext with
  | reads middle rest value hreads =>
    rw [← List.append_assoc]
    refine .reads _ rest value fun other hother => ?_
    rw [List.append_assoc, h, hreads other hother]
  | fails middle rest fault more value hfails hmore =>
    rw [← List.append_assoc]
    refine .fails _ rest fault more value (fun other hother => ?_) (fun other hother => ?_)
    · rw [List.append_assoc, h, hfails other hother]
    · rw [List.append_assoc, h, hmore other hother]

/-- Tokens are taken before the next one, and another reader goes on after them. When it takes
none, it has to be said what else may stand there. -/
theorem after (front : List Token)
    (h : ∀ other, other.head? = rest.head? → reader (front ++ other) = next other)
    (hnext : StopsInTime follows next rest)
    (hclose : ∃ more value, ∀ other, follows other →
      reader (front ++ (more ++ other)) = .read value other)
    (hstop : ∀ value, next rest = .read value rest →
      ∀ other, follows other → reader (front ++ other) = next other) :
    StopsInTime follows reader (front ++ rest) := by
  cases hnext with
  | reads middle rest value hreads =>
    rw [← List.append_assoc]
    refine .reads _ rest value fun other hother => ?_
    rw [List.append_assoc, ← hreads other hother]
    cases middle with
    | nil =>
      rcases hother with hother | hother
      · exact h other hother
      · exact hstop value (hreads rest (Or.inl rfl)) other hother
    | cons => exact h _ rfl
  | fails middle rest fault more value hfails hmore =>
    rw [← List.append_assoc]
    have hfails' (other : List Token) (hother : other.head? = rest.head?) :
        reader ((front ++ middle) ++ other) = .fail fault other := by
      have hhead : (middle ++ other).head? = (middle ++ rest).head? := by
        rw [List.head?_append, List.head?_append, hother]
      rw [List.append_assoc, h _ hhead, hfails other hother]
    cases middle with
    | nil =>
      obtain ⟨more, value, hclose⟩ := hclose
      refine .fails _ rest fault more value hfails' fun other hother => ?_
      rw [List.append_nil, hclose other hother]
    | cons token middle =>
      refine .fails _ rest fault more value hfails' fun other hother => ?_
      rw [List.append_assoc, ← hmore other hother]
      exact h _ rfl

/-- One reader goes on after another. What may stand between the two is a closing for the
second that may follow the first. -/
theorem andThen {reader : Reader β} {next : β → Reader α}
    (h : StopsInTime follows' reader input)
    (hnext : ∀ value rest, reader input = .read value rest → StopsInTime follows (next value) rest)
    (hclose : ∀ value, ∃ more closed, ∀ other, follows other →
      follows' (more ++ other) ∧ next value (more ++ other) = .read closed other)
    (hstop : ∀ value rest closed, next value rest = .read closed rest →
      ∀ other, follows other → follows' other) :
    StopsInTime follows (fun input => (reader input).andThen next) input := by
  cases h with
  | reads front rest value hreads =>
    have hgo (other : List Token) (hother : other.head? = rest.head? ∨ follows' other) :
        (reader (front ++ other)).andThen next = next value other := by
      rw [hreads other hother]
      rfl
    refine after front (fun other hother => hgo other (Or.inl hother))
      (hnext value rest (hreads rest (Or.inl rfl))) ?_ ?_
    · obtain ⟨more, closed, hclose⟩ := hclose value
      refine ⟨more, closed, fun other hother => ?_⟩
      rw [hgo _ (Or.inr (hclose other hother).1), (hclose other hother).2]
    · exact fun closed hrest other hother =>
        hgo other (Or.inr (hstop value rest closed hrest other hother))
  | fails front rest fault more value hfails hmore =>
    obtain ⟨closing, closed, hclose⟩ := hclose value
    refine .fails front rest fault (more ++ closing) closed (fun other hother => ?_)
      (fun other hother => ?_)
    · rw [hfails other hother]
      rfl
    · rw [List.append_assoc, hmore _ (hclose other hother).1]
      exact (hclose other hother).2

/-- A reader stops in time also if its value is changed. -/
theorem map {f : β → α} {reader : Reader β} (h : StopsInTime follows reader input) :
    StopsInTime follows (fun input => (reader input).map f) input :=
  h.andThen (fun value rest _ => .reads [] rest (f value) fun _ _ => rfl)
    (fun value => ⟨[], f value, fun _ hother => ⟨hother, rfl⟩⟩) (fun _ _ _ _ _ => id)

end StopsInTime

/-- A rule that stops in time on all tokens. -/
def InTime {α : Type} {bound : List Token → Nat} (follows : List Token → Prop)
    (rule : (input : List Token) → Reading α (bound input)) : Prop :=
  ∀ input, StopsInTime follows (fun input => outcomeOf (rule input)) input

/-- Some tokens are a value before any that may follow it. -/
theorem InTime.exists_spelling {α : Type} {follows : List Token → Prop} {rule : Rule α}
    (h : InTime follows rule) : ∃ more value, ∀ other, follows other →
      outcomeOf (rule (more ++ other)) = .read value other := by
  generalize hinput : ([] : List Token) = input
  cases h input with
  | reads front rest value hreads =>
    obtain ⟨rfl, rfl⟩ := List.append_eq_nil_iff.mp hinput.symm
    exact (outcomeOf_rule_ne rule value [] (hreads [] (Or.inl rfl))).elim
  | fails front rest fault more value hfails hmore =>
    obtain ⟨rfl, rfl⟩ := List.append_eq_nil_iff.mp hinput.symm
    exact ⟨more, value, hmore⟩

/-- Tokens that continue neither an expression nor a path. -/
def EndsExpression (rest : List Token) : Prop :=
  NotBefore ExtendsPath (kinds rest) ∧ NotBefore IsOperator (kinds rest)

/-- Only the first token counts for what does not stand in front. -/
theorem notBefore_kinds_congr {p : TokenKind → Prop} {rest other : List Token}
    (h : other.head? = rest.head?) : NotBefore p (kinds other) ↔ NotBefore p (kinds rest) := by
  rw [NotBefore, NotBefore, kinds, kinds, List.head?_map, List.head?_map, h]

/-- Tokens start with one of a kind, or not. -/
theorem notBefore_or_eq_cons (kind : TokenKind) (tokens : List Token) :
    NotBefore (kind = ·) (kinds tokens) ∨ ∃ span rest, tokens = ⟨kind, span⟩ :: rest := by
  cases tokens with
  | nil => exact Or.inl (notBefore_nil _)
  | cons token rest =>
    by_cases hkind : kind = token.kind
    · exact Or.inr ⟨token.span, rest, by rw [hkind]⟩
    · exact Or.inl (notBefore_cons.mpr hkind)

/-- Tokens that are not a token of a kind and others do not start with one. -/
theorem notBefore_of_forall_ne {kind : TokenKind} {tokens : List Token}
    (h : ∀ span rest, tokens ≠ ⟨kind, span⟩ :: rest) : NotBefore (kind = ·) (kinds tokens) := by
  refine (notBefore_or_eq_cons kind tokens).resolve_right ?_
  rintro ⟨span, rest, htokens⟩
  exact h span rest htokens

/-- Tokens that start with a semicolon. -/
def AtSemicolon (rest : List Token) : Prop := ∃ span more, rest = ⟨.symbol .semicolon, span⟩ :: more

/-- Tokens of any kind. -/
def Anything (_ : List Token) : Prop := True

/-- A token of a kind, at some place. -/
def TokenKind.token (kind : TokenKind) : Token := ⟨kind, ⟨0, 0⟩⟩

/-- An expression ends before a token that continues neither a path nor a chain of operators. -/
theorem endsExpression_cons {token : Token} {rest : List Token} :
    EndsExpression (token :: rest) ↔ ¬ExtendsPath token.kind ∧ ¬IsOperator token.kind := by
  rw [EndsExpression, kinds_cons, notBefore_cons, notBefore_cons]

/-- The signs that close a phrase or separate phrases end an expression. -/
theorem endsExpression_of_symbol {sign : Symbol} (span : Span) (rest : List Token)
    (h : sign ∈ [Symbol.rightBrace, .rightBracket, .rightParen, .semicolon]) :
    EndsExpression (⟨.symbol sign, span⟩ :: rest) := by
  rw [endsExpression_cons]
  constructor
  · cases sign <;> first | exact id | exact absurd h (by decide)
  · rintro ⟨operator, hoperator⟩
    obtain rfl := TokenKind.symbol.inj hoperator
    cases operator <;> exact absurd h (by decide)

/-- An expression ends before a semicolon. -/
theorem AtSemicolon.endsExpression {rest : List Token} (h : AtSemicolon rest) :
    EndsExpression rest := by
  obtain ⟨span, more, rfl⟩ := h
  exact endsExpression_of_symbol span more (by decide)

/-- Before a semicolon there is no assignment sign. -/
theorem AtSemicolon.notBefore_assign {rest : List Token} (h : AtSemicolon rest) :
    NotBefore (.symbol .assign = ·) (kinds rest) := by
  obtain ⟨span, more, rfl⟩ := h
  exact notBefore_cons.mpr nofun

end JsonTemplate
