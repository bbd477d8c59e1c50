import JsonTemplate.Proofs.Parser.ValidPrefix

/-!
# The first impossible token

A parse that fails reports the first token at which the tokens stop being extendable to a
document: those in front of it are the start of tokens that are accepted, and no accepted tokens
start with it in its place. The report is fixed by the tokens up to that one, so nothing that
stands behind it matters, be it another fault.

Tokens are compared as they are parsed, with an end of input after the last one.
-/

namespace JsonTemplate

/-- The tokens, with an end of input where the last one ends if they have none there. -/
def terminated (tokens : List Token) : List Token :=
  match tokens.getLast? with
  | none => [⟨.endOfInput, ⟨0, 0⟩⟩]
  | some last =>
    if last.kind = .endOfInput then tokens
    else tokens ++ [⟨.endOfInput, ⟨last.span.stop, last.span.stop⟩⟩]

/-- Only an end of input is put behind tokens. -/
theorem exists_terminated_eq_append (tokens : List Token) :
    ∃ more, terminated tokens = tokens ++ more := by
  unfold terminated
  split
  · rename_i hlast
    obtain rfl := List.getLast?_eq_none_iff.mp hlast
    exact ⟨_, rfl⟩
  · split
    · exact ⟨[], (List.append_nil _).symm⟩
    · exact ⟨_, rfl⟩

/-- Tokens without an end of input get one where the last of them ends. -/
theorem terminated_of_forall_ne {tokens : List Token}
    (h : ∀ token ∈ tokens, token.kind ≠ .endOfInput) :
    terminated tokens = tokens ++ [⟨.endOfInput, ⟨endPosition tokens, endPosition tokens⟩⟩] := by
  have hfind : tokens.find? (·.kind = .endOfInput) = none := by simpa using h
  unfold terminated endPosition
  rw [hfind]
  cases hlast : tokens.getLast? with
  | none => simp [List.getLast?_eq_none_iff.mp hlast]
  | some last => simp [h last (List.mem_of_getLast? hlast)]

/-- The tokens before the first end of input, and that one, which starts where the input ends. -/
theorem exists_terminated_eq (tokens : List Token) :
    ∃ span more, terminated tokens = beforeEnd tokens ++ ⟨.endOfInput, span⟩ :: more ∧
      span.start = endPosition tokens := by
  have hsplit : beforeEnd tokens ++ tokens.dropWhile (·.kind ≠ .endOfInput) = tokens :=
    List.takeWhile_append_dropWhile
  cases hrest : tokens.dropWhile (·.kind ≠ .endOfInput) with
  | nil =>
    rw [hrest, List.append_nil] at hsplit
    refine ⟨⟨endPosition tokens, endPosition tokens⟩, [], ?_, rfl⟩
    rw [hsplit]
    exact terminated_of_forall_ne fun token htoken => by
      rw [← hsplit] at htoken
      simpa using List.mem_takeWhile_imp htoken
  | cons token rest =>
    obtain ⟨more, hmore⟩ := exists_terminated_eq_append tokens
    have hkind : token.kind = .endOfInput := by
      have hstop :=
        notBefore_dropWhile (fun token : Token => decide (token.kind ≠ .endOfInput)) tokens
      rw [hrest, notBefore_cons] at hstop
      simpa using hstop
    have hfind : tokens.find? (·.kind = .endOfInput) = some token := by
      rw [List.find?_eq_head?_dropWhile_not]
      simpa using congrArg List.head? hrest
    refine ⟨token.span, rest ++ more, ?_, ?_⟩
    · rw [hrest] at hsplit
      rw [hmore, ← hkind, ← List.cons_append, ← List.append_assoc, hsplit]
    · unfold endPosition
      rw [hfind]

/-- Tokens that are no end of input are all before the end. -/
theorem beforeEnd_append {front : List Token} (hfront : ∀ token ∈ front, token.kind ≠ .endOfInput)
    (rest : List Token) : beforeEnd (front ++ rest) = front ++ beforeEnd rest :=
  List.takeWhile_append_of_pos fun token htoken => decide_eq_true (hfront token htoken)

/-- No token before the end is an end of input. -/
theorem ne_endOfInput_of_mem_beforeEnd {tokens : List Token} {token : Token}
    (h : token ∈ beforeEnd tokens) : token.kind ≠ .endOfInput := by
  simpa using List.mem_takeWhile_imp h

/-- An end of input that is put behind tokens changes nothing before the end. -/
theorem beforeEnd_terminated (tokens : List Token) :
    beforeEnd (terminated tokens) = beforeEnd tokens := by
  obtain ⟨span, after, hterminated, -⟩ := exists_terminated_eq tokens
  rw [hterminated, beforeEnd_append fun _ => ne_endOfInput_of_mem_beforeEnd]
  simp [beforeEnd]

namespace Grammar

/-- A root with nothing behind it is a document. -/
theorem document_of_read {input : List Token} {tree : Node}
    (h : outcomeOf (root input) = .read tree []) : document input = .ok tree := by
  obtain ⟨parsed, hroot, rfl, hrest⟩ := exists_parsed_of_outcomeOf h
  simp only [document, hroot, bind, Except.bind, hrest]
  rfl

/-- A token behind the root is at fault. -/
theorem document_of_read_cons {input : List Token} {tree : Node} {token : Token}
    {rest : List Token} (h : outcomeOf (root input) = .read tree (token :: rest)) :
    document input = .error ⟨.trailing, token :: rest⟩ := by
  obtain ⟨parsed, hroot, -, hrest⟩ := exists_parsed_of_outcomeOf h
  simp only [document, hroot, bind, Except.bind, hrest]

/-- A fault in the root is one of the document. -/
theorem document_of_fail {input : List Token} {fault : ParseFault} {rest : List Token}
    (h : outcomeOf (root input) = .fail fault rest) : document input = .error ⟨fault, rest⟩ := by
  rw [document, eq_error_of_outcomeOf h]
  rfl

/-- A document fails at a token that is reported whatever stands behind it, and the tokens in
front of that one are the start of a document. -/
theorem document_stopsInTime {input : List Token} {failure : Failure}
    (h : document input = .error failure) :
    ∃ front, input = front ++ failure.rest ∧
      (∀ other, other.head? = failure.rest.head? →
        document (front ++ other) = .error ⟨failure.fault, other⟩) ∧
      ∃ more tree, document (front ++ more) = .ok tree := by
  cases root_inTime input with
  | reads front rest tree hreads =>
    cases rest with
    | nil =>
      rw [document_of_read (hreads [] (Or.inl rfl))] at h
      cases h
    | cons token rest =>
      rw [document_of_read_cons (hreads (token :: rest) (Or.inl rfl))] at h
      cases h
      refine ⟨front, rfl, forall_head?_iff.mpr fun more => ?_, [], tree, ?_⟩
      · exact document_of_read_cons (hreads (token :: more) (Or.inl rfl))
      · exact document_of_read (hreads [] (Or.inr trivial))
  | fails front rest fault more tree hfails hmore =>
    rw [document_of_fail (hfails rest rfl)] at h
    cases h
    refine ⟨front, rfl, fun other hother => document_of_fail (hfails other hother), more, tree, ?_⟩
    rw [← List.append_nil more]
    exact document_of_read (hmore [] trivial)

end Grammar

/-- The error of a failure is the kind and the place of the token that it is found at. -/
theorem parse_of_document_error {tokens front rest : List Token} {fault : ParseFault}
    {token : Token} (hfront : beforeEnd tokens = front ++ rest)
    (h : Grammar.document (front ++ rest) = .error ⟨fault, rest⟩)
    (htoken : (terminated tokens)[front.length]? = some token) :
    parse tokens = .error ⟨fault, token.kind, token.span.start⟩ := by
  obtain ⟨span, more, hterminated, hspan⟩ := exists_terminated_eq tokens
  rw [hterminated, hfront, List.append_assoc, List.getElem?_append_right (Nat.le_refl _),
    Nat.sub_self] at htoken
  unfold parse
  rw [hfront, h]
  cases rest with
  | nil =>
    cases htoken
    rw [← hspan]
    rfl
  | cons token rest =>
    cases htoken
    rfl

/-- The first token alone decides whether anything is before the end. -/
theorem head?_beforeEnd_cons (token : Token) (rest other : List Token) :
    (beforeEnd (token :: rest)).head? = (beforeEnd (token :: other)).head? := by
  unfold beforeEnd
  rw [List.takeWhile_cons, List.takeWhile_cons]
  split <;> rfl

/-- Tokens that agree up to an index agree, before the end of input, on what stands in front of
that index and on the token there. -/
theorem exists_beforeEnd_eq_of_take {tokens other front rest : List Token}
    (hfront : beforeEnd tokens = front ++ rest)
    (hother : (terminated other).take (front.length + 1) =
      (terminated tokens).take (front.length + 1)) :
    ∃ left, beforeEnd other = front ++ left ∧ left.head? = rest.head? := by
  obtain ⟨span, more, hterminated, -⟩ := exists_terminated_eq tokens
  rw [hfront, List.append_assoc] at hterminated
  obtain ⟨token, after, htoken⟩ : ∃ token after,
      rest ++ ⟨.endOfInput, span⟩ :: more = token :: after :=
    List.exists_cons_of_ne_nil (by simp)
  have hinside (token : Token) (h : token ∈ front) : token.kind ≠ .endOfInput := by
    have hmem : token ∈ beforeEnd tokens := hfront ▸ List.mem_append_left _ h
    exact ne_endOfInput_of_mem_beforeEnd hmem
  have hsplit : terminated other = front ++ token ::
      (terminated other).drop (front.length + 1) := by
    have hall := List.take_append_drop (front.length + 1) (terminated other)
    rw [hother, hterminated, htoken, List.take_length_add_append] at hall
    simpa using hall.symm
  have hrest : front ++ rest = front ++ beforeEnd (token :: after) := by
    rw [← hfront, ← beforeEnd_terminated tokens, hterminated, htoken, beforeEnd_append hinside]
  refine ⟨beforeEnd (token :: (terminated other).drop (front.length + 1)), ?_, ?_⟩
  · rw [← beforeEnd_append hinside, ← hsplit, beforeEnd_terminated]
  · rw [List.append_cancel_left hrest]
    exact head?_beforeEnd_cons _ _ _

/-- What is before the end stands in front of the first end of input. -/
theorem length_le_findIdx_terminated {tokens front rest : List Token}
    (hfront : beforeEnd tokens = front ++ rest) :
    front.length ≤ (terminated tokens).findIdx (·.kind = .endOfInput) := by
  obtain ⟨span, more, hterminated, -⟩ := exists_terminated_eq tokens
  rw [hterminated, hfront, List.append_assoc, List.findIdx_append, if_neg]
  · exact Nat.le_add_left _ _
  · rw [List.findIdx_lt_length]
    rintro ⟨token, htoken, hkind⟩
    have hmem : token ∈ beforeEnd tokens := hfront ▸ List.mem_append_left _ htoken
    exact ne_endOfInput_of_mem_beforeEnd hmem (of_decide_eq_true hkind)

/-- Parsing tokens fails with an error at the token with an index, and that token is the first
one at which the tokens stop being extendable to a document. -/
structure FirstFault (tokens : List Token) (error : ParseError) (index : Nat) : Prop where
  /-- The tokens before the index are taken when the parser fails. -/
  taken : Grammar.document (beforeEnd tokens) =
    .error ⟨error.fault, (beforeEnd tokens).drop index⟩
  /-- The error reports the token with the index, and where it starts. -/
  reported : ∃ token, (terminated tokens)[index]? = some token ∧ error.found = token.kind ∧
    error.position = token.span.start
  /-- That token is at the latest the first end of input. -/
  le_end : index ≤ (terminated tokens).findIdx (·.kind = .endOfInput)
  /-- Whatever stands behind that token, the error is the same. -/
  settled : ∀ other, (terminated other).take (index + 1) = (terminated tokens).take (index + 1) →
    parse other = .error error
  /-- The tokens in front of it are the start, but not the whole, of tokens that are accepted. -/
  extendable : ∃ other tree, parse other = .ok tree ∧
    (terminated tokens).take index <+: terminated other ∧
      (terminated tokens).take index ≠ terminated other
  /-- Up to the index and no further do the tokens agree with ones that are accepted. -/
  first : ∀ count, (∃ other tree, parse other = .ok tree ∧
    (terminated other).take count = (terminated tokens).take count) ↔ count ≤ index

/-- Tokens that a document is read from are accepted, and their first ones agree with any that
start like them. -/
theorem exists_parse_of_document {front more : List Token} {tree : Node}
    (h : Grammar.document (front ++ more) = .ok tree) :
    parse (front ++ more) = .ok tree ∧
      ∃ token after, terminated (front ++ more) = front ++ token :: after := by
  have hderives := (Grammar.document_eq_ok_iff _ _).mp h
  have hend := beforeEnd_of_derives hderives
  obtain ⟨span, after, hterminated, -⟩ := exists_terminated_eq (front ++ more)
  rw [hend, List.append_assoc] at hterminated
  refine ⟨parse_of_derives hderives, ?_⟩
  obtain ⟨token, rest, hrest⟩ : ∃ token rest,
      more ++ ⟨.endOfInput, span⟩ :: after = token :: rest :=
    List.exists_cons_of_ne_nil (by simp)
  exact ⟨token, rest, by rw [hterminated, hrest]⟩

/-- Every failed parse reports the first impossible token. -/
theorem exists_firstFault_of_parse {tokens : List Token} {error : ParseError}
    (h : parse tokens = .error error) : ∃ index, FirstFault tokens error index := by
  obtain ⟨⟨fault, rest⟩, hfailure⟩ : ∃ failure,
      Grammar.document (beforeEnd tokens) = .error failure := by
    unfold parse at h
    split at h
    · cases h
    · exact ⟨_, ‹_›⟩
  obtain ⟨front, hfront, hfails, more, tree, hmore⟩ := Grammar.document_stopsInTime hfailure
  obtain ⟨hparse, next, after, hother⟩ := exists_parse_of_document hmore
  obtain ⟨span, left, hterminated, -⟩ := exists_terminated_eq tokens
  dsimp only at hfront hfails
  rw [hfront, List.append_assoc] at hterminated
  have htake : (terminated tokens).take front.length = front := by
    rw [hterminated, List.take_left]
  obtain ⟨token, htoken⟩ : ∃ token, (terminated tokens)[front.length]? = some token := by
    rw [hterminated, List.getElem?_append_right (Nat.le_refl _), Nat.sub_self]
    cases rest <;> exact ⟨_, rfl⟩
  have hsettled (other : List Token) (hagree : (terminated other).take (front.length + 1) =
      (terminated tokens).take (front.length + 1)) :
      parse other = .error ⟨fault, token.kind, token.span.start⟩ := by
    obtain ⟨left, hleft, hhead⟩ := exists_beforeEnd_eq_of_take hfront hagree
    refine parse_of_document_error hleft (hfails left hhead) ?_
    rw [← List.getElem?_take_of_lt (Nat.lt_succ_self _), hagree,
      List.getElem?_take_of_lt (Nat.lt_succ_self _), htoken]
  obtain rfl : ⟨fault, token.kind, token.span.start⟩ = error :=
    Except.error.inj ((hsettled tokens rfl).symm.trans h)
  refine ⟨front.length, ?_, ⟨token, htoken, rfl, rfl⟩, ?_, hsettled, ?_, fun count => ?_⟩
  · rw [hfailure, hfront, List.drop_left]
  · exact length_le_findIdx_terminated hfront
  · refine ⟨_, tree, hparse, ?_, ?_⟩
    · rw [htake, hother]
      exact List.prefix_append _ _
    · rw [htake, hother]
      simp
  · constructor
    · rintro ⟨other, tree, haccepted, hagree⟩
      by_contra hlt
      have hsame : (terminated other).take (front.length + 1) =
          (terminated tokens).take (front.length + 1) := by
        have htaken := congrArg (List.take (front.length + 1)) hagree
        rwa [List.take_take, List.take_take, Nat.min_eq_left (Nat.lt_of_not_le hlt)] at htaken
      rw [hsettled other hsame] at haccepted
      cases haccepted
    · intro hle
      refine ⟨_, tree, hparse, ?_⟩
      rw [hother, hterminated, List.take_append_of_le_length hle,
        List.take_append_of_le_length hle]

/-- A sum without its second term, and something else behind it. -/
def danglingSum : List Token :=
  [⟨.symbol .leftBracket, ⟨0, 1⟩⟩, ⟨.integer 1, ⟨1, 2⟩⟩, ⟨.symbol .plus, ⟨2, 3⟩⟩,
    ⟨.symbol .rightBracket, ⟨3, 4⟩⟩, ⟨.integer 2, ⟨5, 6⟩⟩]

/-- The error of a sum without its right operand. -/
def danglingSumError : ParseError := ⟨.expected .expression, .symbol .rightBracket, 3⟩

/-- A sum without its right operand fails at the sign behind it. -/
theorem firstFault_danglingSum :
    parse danglingSum = .error danglingSumError ∧
      ∃ index, FirstFault danglingSum danglingSumError index := by
  have hparse : parse danglingSum = .error danglingSumError := by with_unfolding_all rfl
  exact ⟨hparse, exists_firstFault_of_parse hparse⟩

end JsonTemplate
