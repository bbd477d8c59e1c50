import JsonTemplate.Proofs.Scanner.Tiling

/-!
# Scanners that are called again and again

A scanner may be called through either of its two entry points, in any order, and also after it
has reported a fault. Whichever entry point is used, the scanner goes on to the same place, so the
two differ only in what they give once the end of the input has been given.

Each call takes characters until it comes to one of two places where every later call stays: the
end of the input, or a character that starts no lexeme. A source that ends without a fault has been
cut into its tokens, and the first fault of any other is the one that stands for its tokens.
-/

namespace JsonTemplate

/-- A text that is not empty has bytes. -/
theorem byteLength_pos {text : List Char} (h : text ≠ []) : 0 < byteLength text := by
  obtain ⟨c, rest, rfl⟩ := List.exists_cons_of_ne_nil h
  rw [byteLength_cons]
  exact Nat.add_pos_left c.utf8Size_pos _

namespace Lexeme

/-- A character that starts no lexeme is left where it is. Every other lexeme, also a faulty one,
takes a character. -/
theorem read_cases (c : Char) (rest : List Char) :
    read c rest = ⟨[], c :: rest, .error (.unexpectedCharacter c, 0)⟩ ∨
      (read c rest).consumed ≠ [] ∧
        ∀ d distance, (read c rest).outcome ≠ .error (.unexpectedCharacter d, distance) := by
  unfold read
  split
  · rename_i lexeme hpair
    unfold readPair? at hpair
    split at hpair
    · obtain ⟨sign, -, rfl⟩ := Option.map_eq_some_iff.mp hpair
      exact Or.inr ⟨List.cons_ne_nil _ _, by simp⟩
    · cases hpair
  · split
    · exact Or.inr ⟨List.cons_ne_nil _ _, by simp⟩
    · split
      · exact Or.inr ⟨List.cons_ne_nil _ _, by simp⟩
      · split
        · refine Or.inr ⟨List.cons_ne_nil _ _, fun d distance => ?_⟩
          simp only [readString]
          split <;> simp
        · split
          · rename_i halpha
            refine Or.inr ⟨?_, by simp [readWord]⟩
            simp [readWord, isWordChar, Char.isAlphanum, halpha]
          · split
            · rename_i hdigit
              refine Or.inr ⟨?_, fun d distance => ?_⟩
              · simp [readNumeral, Numeral.read, Numeral.text, hdigit]
              · simp only [readNumeral]
                split
                · simp
                · split <;> simp
            · exact Or.inl rfl

end Lexeme

namespace Scanner

/-- The byte offset at which the source of a scanner ends. -/
def stop (scanner : Scanner) : Nat := scanner.offset + byteLength scanner.rest

/-- How the next token is scanned, with the scanner that is left: the end of the input is given, a
character that starts no lexeme is met, or characters are taken. -/
inductive Step (scanner : Scanner) : Except LexError Token × Scanner → Prop
  | ended : Step scanner (.ok (endToken scanner.stop), ⟨[], scanner.stop, true⟩)
  | stuck {gap rest : List Char} {c : Char} :
      scanner.rest = gap ++ c :: rest → ¬isSpace c →
      Lexeme.read c rest = ⟨[], c :: rest, .error (.unexpectedCharacter c, 0)⟩ →
      Step scanner (.error ⟨.unexpectedCharacter c, scanner.offset + byteLength gap⟩,
        ⟨c :: rest, scanner.offset + byteLength gap, scanner.finished⟩)
  | moved {front rest : List Char} {result : Except LexError Token} :
      scanner.rest = front ++ rest → front ≠ [] →
      (∀ token, result = .ok token → token.kind ≠ .endOfInput) →
      (∀ c position, result ≠ .error ⟨.unexpectedCharacter c, position⟩) →
      Step scanner (result, ⟨rest, scanner.offset + byteLength front, scanner.finished⟩)

/-- Reading the next token is a step of the scanner. -/
theorem step_nextToken (scanner : Scanner) : scanner.Step scanner.nextToken := by
  have hsplit := List.takeWhile_append_dropWhile (p := isSpace) (l := scanner.rest)
  have hstop : NotBefore (isSpace ·) (scanner.rest.dropWhile isSpace) :=
    notBefore_dropWhile isSpace scanner.rest
  unfold nextToken
  generalize scanner.rest.takeWhile isSpace = gap at hsplit
  cases hrest : scanner.rest.dropWhile isSpace with
  | nil =>
    rw [hrest, List.append_nil] at hsplit
    rw [hsplit]
    exact .ended
  | cons c rest =>
    rw [hrest] at hsplit hstop
    rcases Lexeme.read_cases c rest with hread | ⟨hconsumed, hexpected⟩
    · have hspace : ¬isSpace c := hstop c rfl
      simp only [hread, byteLength_nil, Nat.add_zero]
      exact .stuck hsplit.symm hspace hread
    · dsimp only
      rw [Nat.add_assoc, ← byteLength_append]
      refine .moved ?_ (List.append_ne_nil_of_right_ne_nil _ hconsumed) ?_ ?_
      · rw [List.append_assoc, Lexeme.consumed_append_read, hsplit]
      · intro token htoken
        split at htoken <;> cases htoken
        rename_i kind hkind
        exact fun hend => Lexeme.outcome_ne_endOfInput c rest (hend ▸ hkind)
      · intro d position herror
        split at herror <;> cases herror
        rename_i distance houtcome
        exact hexpected d distance houtcome

/-- A scanner that has given the end of the input has nothing left to scan. -/
def IsSound (scanner : Scanner) : Prop := scanner.finished → scanner.rest = []

variable {scanner after : Scanner} {result : Except LexError Token}

namespace Step

/-- A scanner stays sound with each step. -/
theorem isSound (h : scanner.Step (result, after)) (hsound : scanner.IsSound) :
    after.IsSound := by
  cases h with
  | ended => exact fun _ => rfl
  | stuck hrest | moved hrest hfront =>
    intro hfinished
    have hnil := hsound hfinished
    rw [hrest] at hnil
    simp_all

/-- The source stays the same. -/
theorem stop_eq (h : scanner.Step (result, after)) : after.stop = scanner.stop := by
  cases h with
  | ended => rfl
  | stuck hrest | moved hrest =>
    simp only [stop, hrest, byteLength_append, Nat.add_assoc]

/-- A step never goes back. -/
theorem offset_le (h : scanner.Step (result, after)) : scanner.offset ≤ after.offset := by
  cases h with
  | ended | stuck | moved => exact Nat.le_add_right _ _

/-- A step to the end of the input, or to a character that starts no lexeme, is repeated by every
later step. -/
theorem nextToken_of_ended (h : scanner.Step (result, after))
    (hlast : (∃ token, result = .ok token ∧ token.kind = .endOfInput) ∨
      ∃ c position, result = .error ⟨.unexpectedCharacter c, position⟩) :
    after.nextToken = (result, after) := by
  cases h with
  | ended => rfl
  | stuck hrest hspace hread =>
    simp [nextToken, hspace, hread]
  | moved _ _ hend hexpected =>
    rcases hlast with ⟨token, htoken, hkind⟩ | ⟨c, position, herror⟩
    · exact absurd hkind (hend token htoken)
    · exact absurd herror (hexpected c position)

end Step

/-- The entry points of a scanner: the next token, or the next token for a consumer that stops at
the end of the input. -/
inductive Call where
  | nextToken | next?

/-- What a call gives: a token, a fault, or nothing. -/
abbrev Answer := Option (Except LexError Token)

/-- The end of the input is given. -/
def IsEnd (answer : Answer) : Prop :=
  ∃ token, answer = some (.ok token) ∧ token.kind = .endOfInput

/-- Whether an answer is a fault. -/
def IsFault (answer : Answer) : Prop := ∃ error, answer = some (.error error)

/-- A character is reported that starts no lexeme. -/
def IsUnexpected (answer : Answer) : Prop :=
  ∃ c position, answer = some (.error ⟨.unexpectedCharacter c, position⟩)

/-- What a call gives, and the scanner that it leaves. -/
def call (scanner : Scanner) : Call → Answer × Scanner
  | .nextToken => (some scanner.nextToken.1, scanner.nextToken.2)
  | .next? => scanner.next?

/-- The scanner after the first calls of a sequence. -/
def afterCalls (scanner : Scanner) (calls : Nat → Call) : Nat → Scanner
  | 0 => scanner
  | count + 1 => ((scanner.afterCalls calls count).call (calls count)).2

/-- What the call with a number gives in a sequence of calls. -/
def answerTo (scanner : Scanner) (calls : Nat → Call) (k : Nat) : Answer :=
  ((scanner.afterCalls calls k).call (calls k)).1

/-- The scanner after a number of tokens or faults. -/
def advanced (scanner : Scanner) : Nat → Scanner
  | 0 => scanner
  | count + 1 => (scanner.advanced count).nextToken.2

/-- One more advance is one more step. -/
theorem step_advanced (scanner : Scanner) (k : Nat) :
    (scanner.advanced k).Step ((scanner.advanced k).nextToken.1, scanner.advanced (k + 1)) :=
  step_nextToken _

/-- A scanner stays sound while it advances. -/
theorem isSound_advanced (hsound : scanner.IsSound) (k : Nat) : (scanner.advanced k).IsSound := by
  induction k with
  | zero => exact hsound
  | succ k ih => exact (scanner.step_advanced k).isSound ih

/-- Where the input stops does not change while the scanner advances. -/
theorem stop_advanced (scanner : Scanner) (k : Nat) : (scanner.advanced k).stop = scanner.stop := by
  induction k with
  | zero => rfl
  | succ k ih => rw [(scanner.step_advanced k).stop_eq, ih]

/-- Until the end of the input has been given, both entry points give what is next. -/
theorem call_of_unfinished (h : scanner.finished = false) (entry : Call) :
    scanner.call entry = (some scanner.nextToken.1, scanner.nextToken.2) := by
  cases entry with
  | nextToken => rfl
  | next? =>
    change scanner.next? = _
    rw [next?, if_neg (by simp [h])]

/-- What a call gives once the end of the input has been given. -/
def answerAfterEnd (stop : Nat) : Call → Answer
  | .nextToken => some (.ok (endToken stop))
  | .next? => none

/-- After the end, a call is answered as all calls are there and changes nothing. -/
theorem call_of_finished (hsound : scanner.IsSound) (h : scanner.finished = true) (entry : Call) :
    scanner.call entry = (answerAfterEnd scanner.stop entry, scanner) := by
  obtain ⟨rest, offset, finished⟩ := scanner
  obtain rfl : rest = [] := hsound h
  obtain rfl : finished = true := h
  cases entry <;> rfl

/-- Both entry points leave the same scanner. -/
theorem call_snd (hsound : scanner.IsSound) (entry : Call) :
    (scanner.call entry).2 = scanner.nextToken.2 := by
  cases hfinished : scanner.finished with
  | true =>
    have hsame := congrArg Prod.snd (call_of_finished hsound hfinished .nextToken)
    rw [call_of_finished hsound hfinished]
    exact hsame.symm
  | false => rw [call_of_unfinished hfinished]

/-- After some calls the scanner stands where as many advances lead. -/
theorem afterCalls_eq_advanced (hsound : scanner.IsSound) (calls : Nat → Call) (k : Nat) :
    scanner.afterCalls calls k = scanner.advanced k := by
  induction k with
  | zero => rfl
  | succ k ih => rw [afterCalls, ih, call_snd (isSound_advanced hsound k), advanced]

/-- Before the end, a call is answered with the next token. -/
theorem answerTo_of_unfinished (hsound : scanner.IsSound) (calls : Nat → Call) {k : Nat}
    (h : (scanner.advanced k).finished = false) :
    scanner.answerTo calls k = some (scanner.advanced k).nextToken.1 := by
  rw [answerTo, afterCalls_eq_advanced hsound, call_of_unfinished h]

/-- After the end, a call is answered as all calls are there. -/
theorem answerTo_of_finished (hsound : scanner.IsSound) (calls : Nat → Call) {k : Nat}
    (h : (scanner.advanced k).finished = true) :
    scanner.answerTo calls k = answerAfterEnd scanner.stop (calls k) := by
  rw [answerTo, afterCalls_eq_advanced hsound, call_of_finished (isSound_advanced hsound k) h,
    stop_advanced]

/-- A call that gives something gives what is next. -/
theorem answerTo_eq_some (hsound : scanner.IsSound) {calls : Nat → Call} {k : Nat}
    {answer : Except LexError Token} (h : scanner.answerTo calls k = some answer) :
    (scanner.advanced k).nextToken.1 = answer := by
  cases hfinished : (scanner.advanced k).finished with
  | true =>
    have hend := congrArg Prod.fst
      (call_of_finished (isSound_advanced hsound k) hfinished .nextToken)
    rw [answerTo_of_finished hsound calls hfinished] at h
    cases hcall : calls k with
    | nextToken =>
      rw [hcall] at h
      rw [stop_advanced] at hend
      exact Option.some.inj (hend.trans h)
    | next? =>
      rw [hcall] at h
      cases h
  | false =>
    rw [answerTo_of_unfinished hsound calls hfinished] at h
    exact Option.some.inj h

/-- Once a step is repeated by the next one, all later ones are the same. -/
theorem advanced_of_repeats {k : Nat}
    (h : (scanner.advanced (k + 1)).nextToken =
      ((scanner.advanced k).nextToken.1, scanner.advanced (k + 1))) {later : Nat}
    (hlater : k < later) : scanner.advanced later = scanner.advanced (k + 1) := by
  induction later, hlater using Nat.le_induction with
  | base => rfl
  | succ later _ ih => rw [advanced, ih, h]

/-- The end of the input is given only when a step comes to it. -/
theorem finished_succ_iff (scanner : Scanner) (k : Nat) :
    (scanner.advanced (k + 1)).finished = true ↔ (scanner.advanced k).finished = true ∨
      ∃ token, (scanner.advanced k).nextToken.1 = .ok token ∧ token.kind = .endOfInput := by
  have hstep := scanner.step_advanced k
  generalize (scanner.advanced k).nextToken.1 = result at hstep
  generalize scanner.advanced (k + 1) = after at hstep ⊢
  cases hstep with
  | ended => exact iff_of_true rfl (Or.inr ⟨_, rfl, rfl⟩)
  | stuck => exact ⟨Or.inl, fun h => h.resolve_right (by rintro ⟨_, ⟨⟩, -⟩)⟩
  | moved _ _ hend =>
    exact ⟨Or.inl, fun h => h.resolve_right (by rintro ⟨_, hok, hkind⟩; exact hend _ hok hkind)⟩

/-- While no call has given the end of the input, the scanner has not either. -/
theorem unfinished_of_forall (hsound : scanner.IsSound) (hstart : scanner.finished = false)
    {calls : Nat → Call} {k : Nat} (h : ∀ j < k, ¬IsEnd (scanner.answerTo calls j)) :
    (scanner.advanced k).finished = false := by
  induction k with
  | zero => exact hstart
  | succ k ih =>
    have hk := ih fun j hj => h j (Nat.lt_succ_of_lt hj)
    rw [← Bool.not_eq_true, finished_succ_iff, hk]
    rintro (hfinished | ⟨token, htoken, hkind⟩)
    · cases hfinished
    · exact h k (Nat.lt_succ_self k)
        ⟨token, by rw [answerTo_of_unfinished hsound calls hk, htoken], hkind⟩

/-- A fault of the next token is one of all tokens. -/
theorem tokens_of_error {error : LexError} (h : scanner.nextToken.1 = .error error) :
    scanner.tokens = .error error := by
  rw [tokens]
  split
  · simp_all
  · simp_all

/-- The tokens of a scanner are those that it gives first, and then those that are left. -/
theorem tokens_of_advanced {k : Nat} (h : ∀ j < k, ∃ token,
      (scanner.advanced j).nextToken.1 = .ok token ∧ token.kind ≠ .endOfInput) :
    ∃ front : List Token,
      (List.range k).map (fun j => (scanner.advanced j).nextToken.1) = front.map .ok ∧
        scanner.tokens = (scanner.advanced k).tokens.map (front ++ ·) := by
  induction k with
  | zero =>
    refine ⟨[], rfl, ?_⟩
    rw [advanced]
    cases scanner.tokens <;> rfl
  | succ k ih =>
    obtain ⟨front, hfront, htokens⟩ := ih fun j hj => h j (Nat.lt_succ_of_lt hj)
    obtain ⟨token, htoken, hkind⟩ := h k (Nat.lt_succ_self k)
    refine ⟨front ++ [token], ?_, ?_⟩
    · rw [List.range_succ, List.map_append, List.map_append, hfront, List.map_singleton, htoken]
      rfl
    · rw [htokens, tokens_of_token (Prod.ext htoken rfl) hkind, advanced]
      cases (scanner.advanced k).nextToken.2.tokens with
      | ok rest => simp [Except.map]
      | error error => rfl

/-- A scanner that starts is sound. -/
theorem isSound_ofSource (source : String) : (ofSource source).IsSound := nofun

/-- The input of a source stops where the source does. -/
theorem stop_ofSource (source : String) : (ofSource source).stop = source.utf8ByteSize :=
  (Nat.zero_add _).trans (byteLength_toList source)

section

variable (source : String) (calls : Nat → Call)

/-- The place that the scanner of a source has come to by the first calls of a sequence, in bytes
from the start of the source. -/
def offsetAfter (k : Nat) : Nat := ((ofSource source).afterCalls calls k).offset

/-- What the call with a number gives in a sequence of calls on the scanner of a source. -/
def answerAt (k : Nat) : Answer := (ofSource source).answerTo calls k

/-- What holds of a sequence of calls on the scanner of a source. -/
structure IsOrderly : Prop where
  /-- No call goes back. -/
  offset_le : ∀ k, offsetAfter source calls k ≤ offsetAfter source calls (k + 1)
  /-- Every call goes forward that gives a token other than the end of the input, or a fault other
  than a character that starts no lexeme. -/
  offset_lt : ∀ k, answerAt source calls k ≠ none → ¬IsEnd (answerAt source calls k) →
    ¬IsUnexpected (answerAt source calls k) →
      offsetAfter source calls k < offsetAfter source calls (k + 1)
  /-- The end of the input is that of the source, and after it there is this end again, or nothing
  for a consumer that stops there. -/
  after_end : ∀ k, IsEnd (answerAt source calls k) →
    answerAt source calls k = some (.ok (endToken source.utf8ByteSize)) ∧
      ∀ later, k < later → answerAt source calls later =
        match calls later with
        | .nextToken => some (.ok (endToken source.utf8ByteSize))
        | .next? => none
  /-- Until the end of the input has been given it does not matter which entry points are used. -/
  interchangeable : ∀ k, (∀ j < k, ¬IsEnd (answerAt source calls j)) →
    ∀ others, answerAt source others k = answerAt source calls k
  /-- After a character that starts no lexeme every call reports it again. -/
  after_unexpected : ∀ k, IsUnexpected (answerAt source calls k) →
    ∀ later, k < later → answerAt source calls later = answerAt source calls k
  /-- One of the two is met by at most one call more than there are characters. -/
  comes_to_rest : ∃ k < source.length + 1,
    IsEnd (answerAt source calls k) ∨ IsUnexpected (answerAt source calls k)
  /-- What is given up to the end of the input, without a fault, are the tokens of the source. -/
  tokens_eq : ∀ k, IsEnd (answerAt source calls k) →
    (∀ j < k, ¬IsEnd (answerAt source calls j) ∧ ¬IsFault (answerAt source calls j)) →
      ∃ tokens, tokenize source = .ok tokens ∧
        (List.range (k + 1)).map (answerAt source calls) = tokens.map fun token => some (.ok token)
  /-- The first fault is what the source has instead of tokens. -/
  fault_eq : ∀ k error, answerAt source calls k = some (.error error) →
    (∀ j < k, ¬IsFault (answerAt source calls j)) → tokenize source = .error error

variable {source calls}

/-- An answer is the next token after as many advances as there were calls. -/
theorem answerAt_eq_some {k : Nat} {answer : Except LexError Token}
    (h : answerAt source calls k = some answer) :
    ((ofSource source).advanced k).nextToken.1 = answer :=
  answerTo_eq_some (isSound_ofSource source) h

/-- After some calls the scanner stands where as many advances lead in the source. -/
theorem offsetAfter_eq (source : String) (calls : Nat → Call) (k : Nat) :
    offsetAfter source calls k = ((ofSource source).advanced k).offset := by
  rw [offsetAfter, afterCalls_eq_advanced (isSound_ofSource source)]

/-- What is given first is the end of the input, a fault or another token. -/
theorem answer_cases {k : Nat} (h : ∀ j < k, ¬IsEnd (answerAt source calls j)) :
    IsEnd (answerAt source calls k) ∨ IsFault (answerAt source calls k) ∨
      ∃ token, ((ofSource source).advanced k).nextToken.1 = .ok token ∧
        token.kind ≠ .endOfInput := by
  have hanswer := answerTo_of_unfinished (isSound_ofSource source) calls
    (unfinished_of_forall (isSound_ofSource source) rfl h)
  cases hresult : ((ofSource source).advanced k).nextToken.1 with
  | error error => exact Or.inr (Or.inl ⟨error, hanswer.trans (congrArg some hresult)⟩)
  | ok token =>
    by_cases hkind : token.kind = .endOfInput
    · exact Or.inl ⟨token, hanswer.trans (congrArg some hresult), hkind⟩
    · exact Or.inr (Or.inr ⟨token, rfl, hkind⟩)

/-- The end of the input and a character that starts no lexeme are given by steps that repeat
themselves. -/
theorem repeats_of_answer {k : Nat}
    (h : IsEnd (answerAt source calls k) ∨ IsUnexpected (answerAt source calls k)) :
    ((ofSource source).advanced (k + 1)).nextToken =
      (((ofSource source).advanced k).nextToken.1, (ofSource source).advanced (k + 1)) := by
  refine (step_advanced _ k).nextToken_of_ended (h.imp ?_ ?_)
  · rintro ⟨token, htoken, hkind⟩
    exact ⟨token, answerAt_eq_some htoken, hkind⟩
  · rintro ⟨c, position, herror⟩
    exact ⟨c, position, answerAt_eq_some herror⟩

/-- A call takes characters unless it comes to one of the two places where all later calls stay. -/
theorem moved_of_answer {k : Nat} (hsome : answerAt source calls k ≠ none)
    (hend : ¬IsEnd (answerAt source calls k))
    (hexpected : ¬IsUnexpected (answerAt source calls k)) :
    ∃ front, front ≠ [] ∧
      ((ofSource source).advanced k).rest = front ++ ((ofSource source).advanced (k + 1)).rest ∧
      ((ofSource source).advanced (k + 1)).offset =
        ((ofSource source).advanced k).offset + byteLength front := by
  obtain ⟨answer, hanswer⟩ := Option.ne_none_iff_exists'.mp hsome
  have hstep := (ofSource source).step_advanced k
  rw [answerAt_eq_some hanswer] at hstep
  generalize (ofSource source).advanced (k + 1) = after at hstep ⊢
  cases hstep with
  | ended => exact absurd ⟨_, hanswer, rfl⟩ hend
  | stuck => exact absurd ⟨_, _, hanswer⟩ hexpected
  | @moved front _ _ hrest hfront => exact ⟨front, hfront, hrest, rfl⟩

/-- The end of the input stays there, and all later calls are answered as after it. -/
theorem answerAt_after_end {k : Nat} (h : IsEnd (answerAt source calls k)) :
    answerAt source calls k = some (.ok (endToken source.utf8ByteSize)) ∧
      ∀ later, k < later →
        answerAt source calls later = answerAfterEnd source.utf8ByteSize (calls later) := by
  obtain ⟨token, htoken, hkind⟩ := h
  have hsound := isSound_ofSource source
  have hresult := answerAt_eq_some htoken
  constructor
  · have hstep := (ofSource source).step_advanced k
    rw [hresult] at hstep
    generalize (ofSource source).advanced (k + 1) = after at hstep
    cases hstep with
    | ended => rw [htoken, stop_advanced, stop_ofSource]
    | moved _ _ hend => exact absurd hkind (hend token rfl)
  · intro later hlater
    have hfinished : ((ofSource source).advanced later).finished = true := by
      rw [advanced_of_repeats (repeats_of_answer (Or.inl ⟨token, htoken, hkind⟩)) hlater]
      exact (finished_succ_iff _ k).mpr (Or.inr ⟨token, hresult, hkind⟩)
    rw [answerAt, answerTo_of_finished hsound calls hfinished, stop_ofSource]

/-- A character that starts no lexeme is found again by every later call. -/
theorem answerAt_after_unexpected {k later : Nat} (h : IsUnexpected (answerAt source calls k))
    (hlater : k < later) : answerAt source calls later = answerAt source calls k := by
  have hrepeats := repeats_of_answer (Or.inr h)
  obtain ⟨c, position, herror⟩ := h
  have hresult := answerAt_eq_some herror
  have hsound := isSound_ofSource source
  have hunfinished : ((ofSource source).advanced later).finished = false := by
    rw [advanced_of_repeats hrepeats hlater, ← Bool.not_eq_true, finished_succ_iff, hresult]
    rintro (hfinished | ⟨_, ⟨⟩, -⟩)
    rw [answerAt, answerTo_of_finished hsound calls hfinished] at herror
    cases hcall : calls k <;> rw [hcall] at herror <;> cases herror
  rw [herror, answerAt, answerTo_of_unfinished hsound calls hunfinished,
    advanced_of_repeats hrepeats hlater, hrepeats, hresult]

/-- As long as none of the two places is met, each call leaves fewer characters. -/
theorem length_rest_le {k : Nat}
    (h : ∀ j < k, ¬(IsEnd (answerAt source calls j) ∨ IsUnexpected (answerAt source calls j))) :
    ((ofSource source).advanced k).rest.length + k ≤ source.length := by
  induction k with
  | zero => exact Nat.le_of_eq source.length_toList
  | succ k ih =>
    have hbefore := ih fun j hj => h j (Nat.lt_succ_of_lt hj)
    have hunfinished := unfinished_of_forall (isSound_ofSource source) rfl
      fun j hj hend => h j (Nat.lt_succ_of_lt hj) (Or.inl hend)
    have hsome : answerAt source calls k ≠ none := by
      rw [answerAt, answerTo_of_unfinished (isSound_ofSource source) calls hunfinished]
      exact Option.some_ne_none _
    obtain ⟨hend, hexpected⟩ := not_or.mp (h k (Nat.lt_succ_self k))
    obtain ⟨front, hfront, hrest, -⟩ := moved_of_answer hsome hend hexpected
    have hlength := congrArg List.length hrest
    have hpos := List.length_pos_iff.mpr hfront
    rw [List.length_append] at hlength
    omega

/-- The tokens before the end of the input, or before the first fault. -/
theorem exists_front {k : Nat}
    (h : ∀ j < k, ¬IsEnd (answerAt source calls j) ∧ ¬IsFault (answerAt source calls j)) :
    ∃ front : List Token,
      (List.range k).map (answerAt source calls) = front.map (fun token => some (.ok token)) ∧
        tokenize source = ((ofSource source).advanced k).tokens.map (front ++ ·) := by
  have hsound := isSound_ofSource source
  have hbefore (j : Nat) (hj : j < k) :
      ∃ token, ((ofSource source).advanced j).nextToken.1 = .ok token ∧
        token.kind ≠ .endOfInput := by
    have hcases := answer_cases (k := j) fun i hi => (h i (Nat.lt_trans hi hj)).1
    exact (hcases.resolve_left (h j hj).1).resolve_left (h j hj).2
  obtain ⟨front, hfront, htokens⟩ := tokens_of_advanced hbefore
  refine ⟨front, ?_, htokens⟩
  have hanswers : (List.range k).map (answerAt source calls) =
      ((List.range k).map fun j => ((ofSource source).advanced j).nextToken.1).map some := by
    rw [List.map_map]
    refine List.map_congr_left fun j hj => ?_
    have hlt := List.mem_range.mp hj
    exact answerTo_of_unfinished hsound calls
      (unfinished_of_forall hsound rfl fun i hi => (h i (Nat.lt_trans hi hlt)).1)
  rw [hanswers, hfront, List.map_map]
  rfl

/-- The answers up to the end are the tokens of the source. -/
theorem tokenize_of_end {k : Nat} (hend : IsEnd (answerAt source calls k))
    (h : ∀ j < k, ¬IsEnd (answerAt source calls j) ∧ ¬IsFault (answerAt source calls j)) :
    ∃ tokens, tokenize source = .ok tokens ∧
      (List.range (k + 1)).map (answerAt source calls) =
        tokens.map fun token => some (.ok token) := by
  obtain ⟨front, hfront, htokens⟩ := exists_front h
  obtain ⟨token, htoken, hkind⟩ := hend
  refine ⟨front ++ [token], ?_, ?_⟩
  · rw [htokens, tokens_of_end (answerAt_eq_some htoken) hkind]
    rfl
  · rw [List.range_succ, List.map_append, List.map_append, hfront, List.map_singleton, htoken]
    rfl

/-- The first fault among the answers is that of the source. -/
theorem tokenize_of_fault {k : Nat} {error : LexError}
    (herror : answerAt source calls k = some (.error error))
    (h : ∀ j < k, ¬IsFault (answerAt source calls j)) : tokenize source = .error error := by
  have hnoEnd (j : Nat) (hj : j < k) : ¬IsEnd (answerAt source calls j) := by
    intro hend
    rw [(answerAt_after_end hend).2 k hj] at herror
    cases hcall : calls k <;> rw [hcall] at herror <;> cases herror
  obtain ⟨front, -, htokens⟩ := exists_front fun j hj => ⟨hnoEnd j hj, h j hj⟩
  rw [htokens, tokens_of_error (answerAt_eq_some herror)]
  rfl

end

/-- Every sequence of calls scans a source in order: it never goes back, comes to rest at the end of
the input or at a character that starts no lexeme, does not depend on the entry points used, and
gives the tokens of the source or the fault that it has instead. -/
theorem isOrderly (source : String) (calls : Nat → Call) : IsOrderly source calls where
  offset_le k := by
    rw [offsetAfter_eq, offsetAfter_eq]
    exact ((ofSource source).step_advanced k).offset_le
  offset_lt k hsome hend hexpected := by
    obtain ⟨front, hfront, -, hoffset⟩ := moved_of_answer hsome hend hexpected
    rw [offsetAfter_eq, offsetAfter_eq, hoffset]
    exact Nat.lt_add_of_pos_right (byteLength_pos hfront)
  after_end k hend := by
    obtain ⟨hanswer, hlater⟩ := answerAt_after_end hend
    refine ⟨hanswer, fun later hlt => ?_⟩
    rw [hlater later hlt]
    cases calls later <;> rfl
  interchangeable k h others := by
    have hunfinished := unfinished_of_forall (isSound_ofSource source) rfl h
    rw [answerAt, answerAt, answerTo_of_unfinished (isSound_ofSource source) others hunfinished,
      answerTo_of_unfinished (isSound_ofSource source) calls hunfinished]
  after_unexpected k h later hlater := answerAt_after_unexpected h hlater
  comes_to_rest := by
    by_contra hnone
    have hlength : ((ofSource source).advanced (source.length + 1)).rest.length +
        (source.length + 1) ≤ source.length :=
      length_rest_le fun j hj hrest => hnone ⟨j, hj, hrest⟩
    omega
  tokens_eq _ := tokenize_of_end
  fault_eq _ _ := tokenize_of_fault

end Scanner

end JsonTemplate
