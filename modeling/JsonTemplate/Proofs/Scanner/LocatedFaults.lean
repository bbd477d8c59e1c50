import JsonTemplate.Proofs.Scanner.Misspellings

/-!
# Where scanning fails

A source that has no tokens is cut into three: a text that has tokens, a misspelt lexeme, and what
is left when the fault is reported. The tokens of the first part are those that are scanned before
the fault, because a lexeme ends by the character behind it. For the same reason the fault stays the
same whatever is written at the end of the source, unless the scanner had nothing left when it
reported it.
-/

namespace JsonTemplate

/-- Longest lexemes in order, with nothing but blanks before each, that cover a text which starts at
a byte offset and has another text behind it. -/
inductive LexemesBefore (rest : List Char) : Nat → List Char → List Token → Prop
  | none {offset : Nat} : LexemesBefore rest offset [] []
  | lexeme {offset start stop : Nat} {gap word front : List Char} {kind : TokenKind}
      {tokens : List Token} :
      (∀ c ∈ gap, isSpace c) → LongestLexeme kind word (front ++ rest) →
      start = offset + byteLength gap → stop = start + byteLength word →
      LexemesBefore rest stop front tokens →
      LexemesBefore rest offset (gap ++ word ++ front) (⟨kind, ⟨start, stop⟩⟩ :: tokens)

namespace LexemesBefore

variable {rest other front : List Char} {offset : Nat} {tokens : List Token}

/-- Another text may stand behind the lexemes if it does not start in a new way. -/
theorem change (h : LexemesBefore rest offset front tokens)
    (hother : ∀ p : Char → Prop, NotBefore p rest → NotBefore p other) :
    LexemesBefore other offset front tokens := by
  induction h with
  | none => exact .none
  | @lexeme _ _ _ gap word front _ _ hgap hlongest hstart hstop _ ih =>
    refine .lexeme hgap ⟨hlongest.spells, ?_⟩ hstart hstop ih
    have hbefore := hlongest.longest
    cases front with
    | nil => exact hother _ hbefore
    | cons c front => exact hbefore

/-- In front of lexemes that tile the rest they tile the whole text. -/
theorem tiling_append (h : LexemesBefore rest offset front tokens) {more : List Token}
    (hrest : Tiling (offset + byteLength front) rest more) :
    Tiling offset (front ++ rest) (tokens ++ more) := by
  induction h with
  | none => exact hrest
  | @lexeme offset start stop gap word front _ _ hgap hlongest hstart hstop _ ih =>
    rw [List.append_assoc]
    refine .lexeme hgap hlongest hstart hstop (ih ?_)
    rwa [hstop, hstart, Nat.add_assoc, Nat.add_assoc, ← byteLength_append, ← byteLength_append,
      ← List.append_assoc]

end LexemesBefore

namespace Scanner

/-- To advance once more is to take the next token first. -/
theorem advanced_succ (scanner : Scanner) (k : Nat) :
    scanner.advanced (k + 1) = scanner.nextToken.2.advanced k := by
  induction k with
  | zero => rfl
  | succ k ih => rw [advanced, ih, advanced]

/-- What the first calls of a scanner give. -/
def firstAnswers (scanner : Scanner) (k : Nat) : List (Except LexError Token) :=
  (List.range k).map fun j => (scanner.advanced j).nextToken.1

variable {rest front : List Char} {offset : Nat} {tokens : List Token}

/-- The next token is the longest lexeme behind the blanks. -/
theorem nextToken_of_lexemeBefore {start stop : Nat} {gap word : List Char} {kind : TokenKind}
    (hgap : ∀ c ∈ gap, isSpace c) (h : LongestLexeme kind word (front ++ rest))
    (hstart : start = offset + byteLength gap) (hstop : stop = start + byteLength word)
    (finished : Bool) :
    nextToken ⟨gap ++ word ++ front ++ rest, offset, finished⟩ =
      (.ok ⟨kind, ⟨start, stop⟩⟩, ⟨front ++ rest, stop, finished⟩) := by
  rw [List.append_assoc]
  exact nextToken_of_longestLexeme hgap h hstart hstop

/-- A scanner comes to the end of lexemes by as many calls, which give their tokens. -/
theorem advanced_of_lexemesBefore (h : LexemesBefore rest offset front tokens)
    (finished : Bool) :
    advanced ⟨front ++ rest, offset, finished⟩ tokens.length =
        ⟨rest, offset + byteLength front, finished⟩ ∧
      firstAnswers ⟨front ++ rest, offset, finished⟩ tokens.length = tokens.map .ok := by
  induction h with
  | none => exact ⟨rfl, rfl⟩
  | @lexeme offset _ _ gap word front _ tokens hgap hlongest hstart hstop _ ih =>
    have hnext := nextToken_of_lexemeBefore hgap hlongest hstart hstop finished
    obtain ⟨hadvanced, hanswers⟩ := ih
    constructor
    · rw [List.length_cons, advanced_succ, hnext, hadvanced, hstop, hstart]
      simp only [byteLength_append, Nat.add_assoc]
    · rw [firstAnswers, List.length_cons, List.range_succ_eq_map, List.map_cons, List.map_map,
        List.map_cons, ← hanswers, firstAnswers, advanced, hnext]
      simp only [Function.comp_def, advanced_succ, hnext, Nat.succ_eq_add_one]

/-- The tokens of a scanner are those of the lexemes in front, and then those that are left. -/
theorem tokens_of_lexemesBefore (h : LexemesBefore rest offset front tokens) (finished : Bool) :
    Scanner.tokens ⟨front ++ rest, offset, finished⟩ =
      (Scanner.tokens ⟨rest, offset + byteLength front, finished⟩).map (tokens ++ ·) := by
  induction h with
  | none =>
    rw [byteLength_nil, Nat.add_zero, List.nil_append]
    cases Scanner.tokens _ <;> rfl
  | @lexeme offset _ _ gap word front _ tokens hgap hlongest hstart hstop _ ih =>
    have hnext := nextToken_of_lexemeBefore hgap hlongest hstart hstop finished
    rw [tokens_of_token hnext (ne_endOfInput_of_longestLexeme hlongest), ih, hstop, hstart]
    simp only [byteLength_append, Nat.add_assoc]
    cases Scanner.tokens _ <;> rfl

/-- A lexeme behind blanks that cannot be read is reported. -/
theorem nextToken_of_outcome_eq_error {gap more : List Char} {c : Char} {fault : LexFault}
    {distance : Nat} (hgap : ∀ c ∈ gap, isSpace c) (hc : ¬isSpace c)
    (h : (Lexeme.read c more).outcome = .error (fault, distance)) (offset : Nat)
    (finished : Bool) :
    nextToken ⟨gap ++ c :: more, offset, finished⟩ =
      (.error ⟨fault, offset + byteLength gap + distance⟩, ⟨(Lexeme.read c more).rest,
        offset + byteLength gap + byteLength (Lexeme.read c more).consumed, finished⟩) := by
  have hstop : NotBefore (isSpace ·) (c :: more) := notBefore_cons.mpr hc
  simp only [nextToken, takeWhile_append_of_notBefore hgap hstop,
    dropWhile_append_of_notBefore hgap hstop, h]

/-- A call that fails has met a lexeme behind blanks that cannot be read. -/
theorem exists_of_nextToken_eq_error {scanner : Scanner} {error : LexError}
    (h : scanner.nextToken.1 = .error error) :
    ∃ gap c more distance, scanner.rest = gap ++ c :: more ∧ (∀ c ∈ gap, isSpace c) ∧ ¬isSpace c ∧
      (Lexeme.read c more).outcome = .error (error.fault, distance) ∧
      error.position = scanner.offset + byteLength gap + distance := by
  have hsplit := List.takeWhile_append_dropWhile (p := isSpace) (l := scanner.rest)
  have hstop := notBefore_dropWhile isSpace scanner.rest
  unfold nextToken at h
  cases hdrop : scanner.rest.dropWhile isSpace with
  | nil =>
    rw [hdrop] at h
    cases h
  | cons c more =>
    rw [hdrop] at h hsplit hstop
    dsimp only at h
    split at h
    · cases h
    · rename_i fault distance houtcome
      cases h
      exact ⟨_, c, more, distance, hsplit.symm, all_takeWhile _ _, hstop c rfl, houtcome, rfl⟩

/-- The tokens before a fault are those of longest lexemes. -/
theorem exists_lexemesBefore {scanner : Scanner} {error : LexError}
    (h : scanner.tokens = .error error) :
    ∃ front rest lexemes, scanner.rest = front ++ rest ∧
      LexemesBefore rest scanner.offset front lexemes ∧
      (nextToken ⟨rest, scanner.offset + byteLength front, scanner.finished⟩).1 =
        .error error := by
  induction hlength : scanner.rest.length using Nat.strong_induction_on generalizing scanner with
  | _ length ih =>
    cases hnext : scanner.nextToken.1 with
    | error other =>
      obtain rfl : other = error := Except.error.inj ((tokens_of_error hnext).symm.trans h)
      exact ⟨[], scanner.rest, [], rfl, .none, hnext⟩
    | ok token =>
      rcases nextToken_cases hnext with ⟨hend, -⟩ | ⟨gap, word, rest, hrest, hgap, hlongest⟩
      · rw [tokens_of_end hnext hend] at h
        cases h
      obtain ⟨text, offset, finished⟩ := scanner
      obtain rfl : text = gap ++ word ++ rest := hrest
      have hscan : nextToken ⟨gap ++ word ++ rest, offset, finished⟩ = _ :=
        nextToken_of_longestLexeme hgap hlongest rfl rfl
      have hkind := ne_endOfInput_of_longestLexeme hlongest
      have hshorter := length_rest_nextToken_lt hnext hkind
      rw [tokens_of_token hscan hkind] at h
      rw [hscan, hlength] at hshorter
      cases hafter : tokens ⟨rest, offset + byteLength gap + byteLength word, finished⟩ with
      | ok more =>
        rw [hafter] at h
        cases h
      | error other =>
        rw [hafter] at h
        cases h
        obtain ⟨front, rest, lexemes, hsplit, hlexemes, hfails⟩ := ih _ hshorter hafter rfl
        obtain rfl := hsplit
        refine ⟨gap ++ word ++ front, rest, _, by simp, .lexeme hgap hlongest rfl rfl hlexemes, ?_⟩
        simpa only [byteLength_append, Nat.add_assoc] using hfails

/-- A source in pieces: lexemes with their tokens, blanks, and a text of which no lexeme can be
read. -/
structure Cut (source : String) (error : LexError) (tokens : List Token) (front gap : List Char)
    (first : Char) (more : List Char) (distance : Nat) : Prop where
  source_eq : source.toList = front ++ (gap ++ first :: more)
  lexemes : LexemesBefore (gap ++ first :: more) 0 front tokens
  blanks : ∀ c ∈ gap, isSpace c
  notBlank : ¬isSpace first
  outcome : (Lexeme.read first more).outcome = .error (error.fault, distance)
  position_eq : error.position = byteLength (front ++ gap) + distance

/-- A source that has no tokens can be cut into lexemes, blanks and a misspelt text. -/
theorem exists_cut {source : String} {error : LexError} (h : tokenize source = .error error) :
    ∃ tokens front gap first more distance,
      Cut source error tokens front gap first more distance := by
  obtain ⟨front, rest, tokens, hsource, hlexemes, hfails⟩ := exists_lexemesBefore h
  obtain ⟨gap, first, more, distance, hrest, hgap, hfirst, houtcome, hposition⟩ :=
    exists_of_nextToken_eq_error hfails
  obtain rfl : rest = gap ++ first :: more := hrest
  refine ⟨tokens, front, gap, first, more, distance, hsource, hlexemes, hgap, hfirst, houtcome, ?_⟩
  rw [byteLength_append, ← Nat.zero_add (byteLength front)]
  exact hposition

namespace Cut

variable {source : String} {error : LexError} {gap more : List Char} {first : Char}
  {distance : Nat}

/-- The text up to the end of the blanks has the tokens of the lexemes. -/
theorem tokenize_front (h : Cut source error tokens front gap first more distance) :
    tokenize (.ofList (front ++ gap)) =
      .ok (tokens ++ [endToken (byteLength (front ++ gap))]) := by
  have hchanged : LexemesBefore gap 0 front tokens := by
    refine h.lexemes.change fun p hp => ?_
    cases gap with
    | nil => exact notBefore_nil p
    | cons c gap => exact hp
  have htiling := hchanged.tiling_append (.blank h.blanks)
  rw [tokenize, ofSource, String.toList_ofList, tokens_of_tiling htiling false, List.append_nil,
    Nat.zero_add]

/-- The scanner of the source gives the tokens of the lexemes, and then it fails. -/
theorem advanced_eq (h : Cut source error tokens front gap first more distance) :
    (ofSource source).advanced tokens.length =
        ⟨gap ++ first :: more, byteLength front, false⟩ ∧
      (ofSource source).firstAnswers tokens.length = tokens.map .ok := by
  have hscanner := advanced_of_lexemesBefore h.lexemes false
  rwa [← h.source_eq, Nat.zero_add] at hscanner

/-- Behind the lexemes of a cut source, the scanner reports the fault of the misspelt text. -/
theorem nextToken_eq (h : Cut source error tokens front gap first more distance) :
    ((ofSource source).advanced tokens.length).nextToken = (.error error,
      ⟨(Lexeme.read first more).rest,
        byteLength (front ++ gap) + byteLength (Lexeme.read first more).consumed, false⟩) := by
  rw [h.advanced_eq.1, nextToken_of_outcome_eq_error h.blanks h.notBlank h.outcome,
    byteLength_append]
  obtain ⟨fault, position⟩ := error
  have hposition := h.position_eq
  rw [byteLength_append] at hposition
  obtain rfl : position = _ := hposition
  rfl

/-- A source that is cut in this way has no tokens. -/
theorem tokenize_eq_error (h : Cut source error tokens front gap first more distance) :
    tokenize source = .error error := by
  have hnext := congrArg Prod.fst h.nextToken_eq
  rw [h.advanced_eq.1] at hnext
  rw [tokenize, ofSource, h.source_eq, tokens_of_lexemesBefore h.lexemes, Nat.zero_add,
    tokens_of_error hnext]
  rfl

/-- If some text is left behind the lexeme that cannot be read, more text at the end makes no
difference to how the source is cut. -/
theorem append (h : Cut source error tokens front gap first more distance)
    (hne : (Lexeme.read first more).rest ≠ []) (suffix : String) :
    Cut (source ++ suffix) error tokens front gap first (more ++ suffix.toList) distance where
  source_eq := by
    rw [String.toList_append, h.source_eq]
    simp
  lexemes := by
    refine h.lexemes.change fun p hp => ?_
    have hlonger := hp.append (by simp) suffix.toList
    rwa [List.append_assoc, List.cons_append] at hlonger
  blanks := h.blanks
  notBlank := h.notBlank
  outcome := by
    rw [Lexeme.read_append_suffix hne]
    exact h.outcome
  position_eq := h.position_eq

/-- The fault is reported at a character of the lexeme that cannot be read. -/
theorem isValid_position (h : Cut source error tokens front gap first more distance) :
    String.Pos.Raw.IsValid source ⟨error.position⟩ ∧ error.position < source.utf8ByteSize := by
  obtain ⟨within, back, hsplit, hback, rfl⟩ :=
    (Lexeme.misspelling_of_read h.outcome).exists_split
  have hsource : source.toList = (front ++ gap ++ within) ++ back := by
    rw [h.source_eq, hsplit]
    simp
  have hposition : error.position = byteLength (front ++ gap ++ within) := by
    rw [h.position_eq, byteLength_append (front ++ gap)]
  rw [hposition]
  constructor
  · refine String.Pos.Raw.isValid_iff_exists_append.mpr
      ⟨.ofList (front ++ gap ++ within), .ofList back, ?_, ?_⟩
    · rw [← String.ofList_append, ← hsource, String.ofList_toList]
    · have hsize := byteLength_toList (.ofList (front ++ gap ++ within))
      rw [String.toList_ofList] at hsize
      rw [hsize]
      rfl
  · have hpos := byteLength_pos hback
    rw [← byteLength_toList, hsource, byteLength_append _ back]
    omega

end Cut

/-- What is known of a source that has no tokens: the tokens that are scanned before the fault, the
text up to the misspelt lexeme, that lexeme with what follows, and the scanner that is left. -/
structure FailsAt (source : String) (error : LexError) (tokens : List Token) (front : List Char)
    (first : Char) (more : List Char) (after : Scanner) : Prop where
  source_eq : source.toList = front ++ first :: more
  scanned : (ofSource source).firstAnswers tokens.length = tokens.map .ok
  fails : ((ofSource source).advanced tokens.length).nextToken = (.error error, after)
  /-- The misspelt lexeme starts at the first character behind the tokens that is not blank. -/
  starts : ¬isSpace first ∧ ∃ gap, (∀ c ∈ gap, isSpace c) ∧
    ((ofSource source).advanced tokens.length).rest = gap ++ first :: more
  tokens_before : tokenize (.ofList front) = .ok (tokens ++ [endToken (byteLength front)])
  located : ∃ distance, error.position = byteLength front + distance ∧
    Misspelling (first :: more) error.fault distance after.rest
  boundary : String.Pos.Raw.IsValid source ⟨error.position⟩
  le_position : byteLength front ≤ error.position
  position_lt : error.position < source.utf8ByteSize
  /-- The scanner stops where the text starts that is left. -/
  stopped : after.offset + byteLength after.rest = source.utf8ByteSize
  stable : after.rest ≠ [] → ∀ suffix, tokenize (source ++ suffix) = .error error

/-- All is known of a source that is cut in this way. -/
theorem Cut.failsAt {source : String} {error : LexError} {gap more : List Char} {first : Char}
    {distance : Nat} (h : Cut source error tokens front gap first more distance) :
    ∃ after, FailsAt source error tokens (front ++ gap) first more after := by
  refine ⟨⟨(Lexeme.read first more).rest,
    byteLength (front ++ gap) + byteLength (Lexeme.read first more).consumed, false⟩, ?_⟩
  exact {
    source_eq := by rw [h.source_eq, List.append_assoc]
    scanned := h.advanced_eq.2
    fails := h.nextToken_eq
    starts := ⟨h.notBlank, gap, h.blanks, congrArg (·.rest) h.advanced_eq.1⟩
    tokens_before := h.tokenize_front
    located := ⟨distance, h.position_eq, Lexeme.misspelling_of_read h.outcome⟩
    boundary := h.isValid_position.1
    le_position := h.position_eq ▸ Nat.le_add_right _ _
    position_lt := h.isValid_position.2
    stopped := by
      have hstop := stop_advanced (ofSource source) (tokens.length + 1)
      rwa [advanced, h.nextToken_eq, stop_ofSource] at hstop
    stable := fun hne suffix => (h.append hne suffix).tokenize_eq_error }

/-- A fault is that of the first lexeme that cannot be read. It is reported at a character of this
lexeme, the source in front of it has the tokens that were scanned, and more text at the end of the
source makes no difference unless nothing was left to scan. -/
theorem failsAt_of_tokenize {source : String} {error : LexError}
    (h : tokenize source = .error error) :
    ∃ tokens front first more after, FailsAt source error tokens front first more after := by
  obtain ⟨tokens, front, gap, first, more, distance, hcut⟩ := exists_cut h
  exact ⟨tokens, front ++ gap, first, more, hcut.failsAt⟩

/-- An escape that does not exist, behind a character of two bytes. -/
theorem failsAt_strayEscape :
    tokenize "[ \"ü\\q\"]" = .error ⟨.invalidEscape, 5⟩ ∧
      ∃ tokens front first more after,
        FailsAt "[ \"ü\\q\"]" ⟨.invalidEscape, 5⟩ tokens front first more after := by
  have hfault : tokenize "[ \"ü\\q\"]" = .error ⟨.invalidEscape, 5⟩ := by decide +kernel
  exact ⟨hfault, failsAt_of_tokenize hfault⟩

end Scanner

end JsonTemplate
