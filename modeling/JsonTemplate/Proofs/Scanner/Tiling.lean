import JsonTemplate.Proofs.Scanner.Lexemes

/-!
# A source and its tokens

A source has tokens exactly when longest lexemes tile it, and the tokens are then those of the
tiling, in order, with the end of the input after them. The offsets are bytes of the source in
UTF-8. A tiling can be followed from left to right, so it fixes the tokens.

Which fault is reported for a source without a tiling is not said here.
-/

namespace JsonTemplate

/-- The empty text has no bytes. -/
@[simp] theorem byteLength_nil : byteLength [] = 0 := rfl

/-- A character adds its bytes to those of the rest. -/
@[simp] theorem byteLength_cons (c : Char) (text : List Char) :
    byteLength (c :: text) = c.utf8Size + byteLength text := rfl

/-- The bytes of two texts add up. -/
@[simp] theorem byteLength_append (front back : List Char) :
    byteLength (front ++ back) = byteLength front + byteLength back := by
  induction front with
  | nil => simp
  | cons c front ih => rw [List.cons_append, byteLength_cons, byteLength_cons, ih, Nat.add_assoc]

/-- The number of bytes of a source is the size of its text. -/
theorem byteLength_toList (source : String) : byteLength source.toList = source.utf8ByteSize := by
  have hsize (text : List Char) : byteLength text = (String.ofList text).utf8ByteSize := by
    induction text with
    | nil => rfl
    | cons c text ih =>
      rw [String.ofList_cons, String.utf8ByteSize_append, String.utf8ByteSize_singleton,
        byteLength_cons, ih]
  rw [hsize, String.ofList_toList]

/-- The end of the input at a byte offset. -/
def endToken (offset : Nat) : Token := ⟨.endOfInput, ⟨offset, offset⟩⟩

namespace Scanner

/-- After blanks alone the end of the input is next. -/
theorem nextToken_of_blank {scanner : Scanner} (h : ∀ c ∈ scanner.rest, isSpace c) :
    scanner.nextToken.1 = .ok (endToken (scanner.offset + byteLength scanner.rest)) := by
  have hdrop : scanner.rest.dropWhile isSpace = [] := List.dropWhile_eq_nil_iff.mpr h
  have htake : scanner.rest.takeWhile isSpace = scanner.rest := List.takeWhile_eq_self_iff.mpr h
  simp only [nextToken, hdrop, htake, endToken]

/-- After blanks and a longest lexeme the token of that lexeme is next. -/
theorem nextToken_of_longestLexeme {offset start stop : Nat} {finished : Bool}
    {gap word rest : List Char} {kind : TokenKind} (hgap : ∀ c ∈ gap, isSpace c)
    (h : LongestLexeme kind word rest) (hstart : start = offset + byteLength gap)
    (hstop : stop = start + byteLength word) :
    nextToken ⟨gap ++ word ++ rest, offset, finished⟩ =
      (.ok ⟨kind, ⟨start, stop⟩⟩, ⟨rest, stop, finished⟩) := by
  obtain ⟨c, more, rfl, hread⟩ := Lexeme.read_of_longestLexeme h
  have hspace : NotBefore (isSpace ·) (c :: more ++ rest) := by
    rintro _ ⟨⟩
    exact Lexeme.not_isSpace_of_longestLexeme h
  have hdrop : (gap ++ c :: more ++ rest).dropWhile isSpace = c :: (more ++ rest) := by
    rw [List.append_assoc, dropWhile_append_of_notBefore hgap hspace, List.cons_append]
  have htake : (gap ++ c :: more ++ rest).takeWhile isSpace = gap := by
    rw [List.append_assoc, takeWhile_append_of_notBefore hgap hspace]
  simp only [nextToken, hdrop, hread, htake, ← hstart, ← hstop]

/-- A token that is scanned is the end of the input after blanks, or that of the longest
lexeme after blanks. -/
theorem nextToken_cases {scanner : Scanner} {token : Token}
    (h : scanner.nextToken.1 = .ok token) :
    (token.kind = .endOfInput ∧ ∀ c ∈ scanner.rest, isSpace c) ∨
      ∃ gap word rest, scanner.rest = gap ++ word ++ rest ∧ (∀ c ∈ gap, isSpace c) ∧
        LongestLexeme token.kind word rest := by
  have hsplit := List.takeWhile_append_dropWhile (p := isSpace) (l := scanner.rest)
  unfold nextToken at h
  cases hdrop : scanner.rest.dropWhile isSpace with
  | nil =>
    simp only [hdrop] at h
    cases h
    exact Or.inl ⟨rfl, List.dropWhile_eq_nil_iff.mp hdrop⟩
  | cons c rest =>
    simp only [hdrop] at h hsplit
    split at h <;> cases h
    rename_i kind hkind
    refine Or.inr ⟨scanner.rest.takeWhile isSpace, _, _, ?_, all_takeWhile _ _,
      Lexeme.longestLexeme_of_read hkind⟩
    rw [List.append_assoc, Lexeme.consumed_append_read, hsplit]

/-- At the end of the input, that token is the only one left. -/
theorem tokens_of_end {scanner : Scanner} {token : Token} (h : scanner.nextToken.1 = .ok token)
    (hend : token.kind = .endOfInput) : scanner.tokens = .ok [token] := by
  rw [tokens]
  split
  · simp_all
  · simp_all

/-- A token that is not the last one stands before all those that are scanned after it. -/
theorem tokens_of_token {scanner after : Scanner} {token : Token}
    (h : scanner.nextToken = (.ok token, after)) (hend : token.kind ≠ .endOfInput) :
    scanner.tokens = after.tokens.map (token :: ·) := by
  rw [tokens]
  split
  · simp_all
  · rename_i token' hnext
    obtain rfl : token = token' := by simpa [h] using hnext
    rw [dif_neg hend]
    simp only [h]
    cases after.tokens <;> rfl

/-- The token of a longest lexeme is not the end of the input. -/
theorem ne_endOfInput_of_longestLexeme {kind : TokenKind} {word rest : List Char}
    (h : LongestLexeme kind word rest) : kind ≠ .endOfInput := by
  rintro rfl
  cases h.spells

/-- The tokens of a tiling are scanned, and the end of the input after them. -/
theorem tokens_of_tiling {offset : Nat} {text : List Char} {lexemes : List Token}
    (h : Tiling offset text lexemes) (finished : Bool) :
    tokens ⟨text, offset, finished⟩ = .ok (lexemes ++ [endToken (offset + byteLength text)]) := by
  induction h with
  | blank hgap => exact tokens_of_end (nextToken_of_blank hgap) rfl
  | lexeme hgap hlongest hstart hstop _ ih =>
    rw [tokens_of_token (nextToken_of_longestLexeme hgap hlongest hstart hstop)
      (ne_endOfInput_of_longestLexeme hlongest), ih]
    simp only [Except.map, byteLength_append, List.cons_append, hstart, hstop, Nat.add_assoc]

/-- What is scanned to the end tiles the text. -/
theorem tiling_of_tokens {scanner : Scanner} {all : List Token} (h : scanner.tokens = .ok all) :
    ∃ lexemes, Tiling scanner.offset scanner.rest lexemes ∧
      all = lexemes ++ [endToken (scanner.offset + byteLength scanner.rest)] := by
  induction hlength : scanner.rest.length using Nat.strong_induction_on
    generalizing scanner all with
  | _ length ih =>
    cases hnext : scanner.nextToken.1 with
    | error error =>
      rw [tokens] at h
      split at h <;> simp_all
    | ok token =>
      rcases nextToken_cases hnext with ⟨hend, hblank⟩ | ⟨gap, word, rest, hrest, hgap, hlongest⟩
      · refine ⟨[], .blank hblank, ?_⟩
        rw [tokens_of_end (nextToken_of_blank hblank) rfl] at h
        cases h
        rfl
      · obtain ⟨text, offset, finished⟩ := scanner
        obtain rfl : text = gap ++ word ++ rest := hrest
        have hscan : nextToken ⟨gap ++ word ++ rest, offset, finished⟩ = _ :=
          nextToken_of_longestLexeme hgap hlongest rfl rfl
        have hkind := ne_endOfInput_of_longestLexeme hlongest
        have hshorter := length_rest_nextToken_lt hnext hkind
        rw [tokens_of_token hscan hkind] at h
        rw [hscan, hlength] at hshorter
        cases hafter : tokens ⟨rest, offset + byteLength gap + byteLength word, finished⟩ with
        | error error =>
          rw [hafter] at h
          cases h
        | ok more =>
          rw [hafter] at h
          cases h
          obtain ⟨lexemes, htiling, rfl⟩ := ih _ hshorter hafter rfl
          refine ⟨_, .lexeme hgap hlongest rfl rfl htiling, ?_⟩
          simp only [byteLength_append, List.cons_append, Nat.add_assoc]

end Scanner

/-- A source has exactly the tokens of its tiling by longest lexemes, and the end of the input
at its last byte offset after them. -/
theorem tokenize_eq_ok_iff_tiling (source : String) (tokens : List Token) :
    tokenize source = .ok tokens ↔
      ∃ lexemes, Tiling 0 source.toList lexemes ∧
        tokens = lexemes ++ [endToken source.utf8ByteSize] := by
  have hlength : 0 + byteLength source.toList = source.utf8ByteSize := by
    rw [Nat.zero_add, byteLength_toList]
  constructor
  · intro h
    obtain ⟨lexemes, htiling, htokens⟩ := Scanner.tiling_of_tokens h
    exact ⟨lexemes, htiling, by rw [htokens, ← hlength]; rfl⟩
  · rintro ⟨lexemes, htiling, rfl⟩
    rw [← hlength]
    exact Scanner.tokens_of_tiling htiling false

end JsonTemplate
