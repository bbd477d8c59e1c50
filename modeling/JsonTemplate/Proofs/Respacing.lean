import JsonTemplate.Compile
import JsonTemplate.Proofs.Parser.Placeless
import JsonTemplate.Proofs.Scanner.Tiling

/-!
# Layout never matters

The lexemes of a source can be set apart by other blanks without changing what the source means: a
blank continues no lexeme, so the same lexemes are scanned again, and what is parsed and built is
fixed by the kinds of the tokens. Only the position of an error moves.

Two lexemes stay apart as long as there is a blank between them. At both ends there may be none.
-/

namespace JsonTemplate

/-- The characters after those of the first bytes. -/
def dropBytes : Nat → List Char → List Char
  | 0, text => text
  | _ + 1, [] => []
  | count + 1, c :: text => dropBytes (count + 1 - c.utf8Size) text

/-- The characters of the first bytes. -/
def takeBytes : Nat → List Char → List Char
  | 0, _ => []
  | _ + 1, [] => []
  | count + 1, c :: text => c :: takeBytes (count + 1 - c.utf8Size) text

/-- The characters at a range of byte offsets. -/
def Span.slice (span : Span) (text : List Char) : List Char :=
  takeBytes (span.stop - span.start) (dropBytes span.start text)

/-- The lexemes of the tokens of a source, without the end of the input. -/
def lexemesOf (source : String) (tokens : List Token) : List (List Char) :=
  tokens.dropLast.map fun token => token.span.slice source.toList

/-- The bytes of the first character are dropped first. -/
theorem dropBytes_cons {count : Nat} (c : Char) (text : List Char) (h : 0 < count) :
    dropBytes count (c :: text) = dropBytes (count - c.utf8Size) text := by
  obtain ⟨count, rfl⟩ := Nat.exists_eq_add_of_lt h
  rw [Nat.zero_add, dropBytes]

/-- The bytes of the first character are taken first. -/
theorem takeBytes_cons {count : Nat} (c : Char) (text : List Char) (h : 0 < count) :
    takeBytes count (c :: text) = c :: takeBytes (count - c.utf8Size) text := by
  obtain ⟨count, rfl⟩ := Nat.exists_eq_add_of_lt h
  rw [Nat.zero_add, takeBytes]

/-- Dropping as many bytes as a front has leaves what is behind it. -/
theorem dropBytes_append (front rest : List Char) :
    dropBytes (byteLength front) (front ++ rest) = rest := by
  induction front with
  | nil => rw [byteLength_nil, List.nil_append, dropBytes]
  | cons c front ih =>
    rw [byteLength_cons, List.cons_append, dropBytes_cons c _ (Nat.add_pos_left c.utf8Size_pos _),
      Nat.add_sub_cancel_left, ih]

/-- Taking as many bytes as a front has takes the front. -/
theorem takeBytes_append (front rest : List Char) :
    takeBytes (byteLength front) (front ++ rest) = front := by
  induction front with
  | nil => rw [byteLength_nil, List.nil_append, takeBytes]
  | cons c front ih =>
    rw [byteLength_cons, List.cons_append, takeBytes_cons c _ (Nat.add_pos_left c.utf8Size_pos _),
      Nat.add_sub_cancel_left, ih]

/-- The bytes of a word between two texts are sliced out as the word. -/
theorem slice_append (front word rest : List Char) :
    Span.slice ⟨byteLength front, byteLength front + byteLength word⟩ (front ++ word ++ rest) =
      word := by
  rw [Span.slice, List.append_assoc, dropBytes_append, Nat.add_sub_cancel_left, takeBytes_append]

/-- The slices at the tokens of a tiling are their lexemes. -/
theorem spells_slice {offset : Nat} {text : List Char} {tokens : List Token}
    (h : Tiling offset text tokens) (front : List Char) (hfront : byteLength front = offset) :
    ∀ token ∈ tokens, Spells token.kind (token.span.slice (front ++ text)) := by
  induction h generalizing front with
  | blank => exact fun _ hmem => nomatch hmem
  | @lexeme _ _ _ gap word rest kind tokens _ hlongest hstart hstop _ ih =>
    subst hfront hstart hstop
    have hwhole : front ++ (gap ++ word ++ rest) = front ++ gap ++ word ++ rest := by
      simp only [List.append_assoc]
    rw [hwhole, ← byteLength_append]
    intro token hmem
    rcases List.mem_cons.mp hmem with rfl | hmem
    · rw [slice_append]
      exact hlongest.spells
    · exact ih _ (by simp only [byteLength_append]) token hmem

/-- A blank continues no lexeme. -/
theorem not_continues_of_isSpace {kind : TokenKind} {word : List Char} {c : Char}
    (h : isSpace c) : ¬Continues kind word c := by
  have hother : ¬isWordChar c ∧ ¬c.isDigit ∧ c ∉ ['.', 'e', 'E', '>', '='] := by
    simp only [isSpace, Bool.or_eq_true, beq_iff_eq, or_assoc] at h
    rcases h with rfl | rfl | rfl | rfl <;> decide
  obtain ⟨hword, hdigit, hsign⟩ := hother
  simp only [List.mem_cons, List.not_mem_nil, or_false, not_or] at hsign
  unfold Continues
  split <;> simp_all

/-- Blanks around lexemes: before the first, and after each of them. Those between two lexemes are
not empty. -/
structure Blanks where
  before : List Char
  after : List (List Char)
  isSpace_of_mem : ∀ gap ∈ before :: after, ∀ c ∈ gap, isSpace c
  ne_nil_of_mem : ∀ gap ∈ after.dropLast, gap ≠ []

namespace Blanks

/-- Lexemes with the blanks around them. -/
def around (blanks : Blanks) (words : List (List Char)) : List Char :=
  blanks.before ++ (List.zipWith (· ++ ·) words blanks.after).flatten

/-- Behind a lexeme the blanks after it are those before the next one. -/
theorem exists_next {blanks : Blanks} {next : List Char} {gaps : List (List Char)}
    (h : blanks.after = next :: gaps) :
    ∃ rest : Blanks, rest.before = next ∧ rest.after = gaps := by
  refine ⟨⟨next, gaps, fun gap hgap => ?_, fun gap hgap => ?_⟩, rfl, rfl⟩
  · rw [← h] at hgap
    exact blanks.isSpace_of_mem gap (List.mem_cons_of_mem _ hgap)
  · refine blanks.ne_nil_of_mem gap ?_
    have hgaps : gaps ≠ [] := List.ne_nil_of_mem ((List.dropLast_sublist gaps).mem hgap)
    rw [h, List.dropLast_cons_of_ne_nil hgaps]
    exact List.mem_cons_of_mem _ hgap

/-- Only behind the last lexeme may there be no blank. -/
theorem notBefore_around {blanks : Blanks} {kind : TokenKind} {word : List Char}
    {words : List (List Char)} (hcount : blanks.after.length = words.length)
    (h : words ≠ [] → blanks.before ≠ []) :
    NotBefore (Continues kind word) (blanks.around words) := by
  rw [around]
  cases hbefore : blanks.before with
  | nil =>
    obtain rfl : words = [] := by
      by_contra hwords
      exact h hwords hbefore
    rw [List.zipWith_nil_left]
    exact notBefore_nil _
  | cons c gap =>
    refine notBefore_cons.mpr (not_continues_of_isSpace ?_)
    exact blanks.isSpace_of_mem _ List.mem_cons_self c (hbefore ▸ List.mem_cons_self)

/-- Lexemes that are set apart by blanks are scanned again, whatever the blanks are. -/
theorem exists_tiling_around {tokens : List Token} {lexeme : Token → List Char}
    (h : ∀ token ∈ tokens, Spells token.kind (lexeme token)) (blanks : Blanks)
    (hcount : blanks.after.length = tokens.length) (offset : Nat) :
    ∃ moved, Tiling offset (blanks.around (tokens.map lexeme)) moved ∧
      kinds moved = kinds tokens := by
  induction tokens generalizing blanks offset with
  | nil =>
    refine ⟨[], .blank fun c hc => ?_, rfl⟩
    rw [around, List.map_nil, List.zipWith_nil_left, List.flatten_nil, List.append_nil] at hc
    exact blanks.isSpace_of_mem _ List.mem_cons_self c hc
  | cons token tokens ih =>
    obtain ⟨next, gaps, hafter⟩ := List.exists_cons_of_length_eq_add_one hcount
    obtain ⟨rest, rfl, rfl⟩ := exists_next hafter
    rw [hafter] at hcount
    obtain ⟨hfirst, hothers⟩ := List.forall_mem_cons.mp h
    obtain ⟨moved, hmoved, hkinds⟩ := ih hothers rest (Nat.succ.inj hcount)
      (offset + byteLength blanks.before + byteLength (lexeme token))
    have htext : blanks.around ((token :: tokens).map lexeme) =
        blanks.before ++ lexeme token ++ rest.around (tokens.map lexeme) := by
      simp only [around, hafter, List.map_cons, List.zipWith_cons_cons, List.flatten_cons,
        List.append_assoc]
    have hlongest : LongestLexeme token.kind (lexeme token) (rest.around (tokens.map lexeme)) := by
      refine ⟨hfirst, notBefore_around ?_ fun htokens => ?_⟩
      · rw [List.length_map]
        exact Nat.succ.inj hcount
      · have hgaps : rest.after ≠ [] := by
          intro hnil
          rw [hnil] at hcount
          exact htokens (List.map_eq_nil_iff.mpr
            (List.length_eq_zero_iff.mp (Nat.succ.inj hcount).symm))
        refine blanks.ne_nil_of_mem rest.before ?_
        rw [hafter, List.dropLast_cons_of_ne_nil hgaps]
        exact List.mem_cons_self
    let span : Span := ⟨offset + byteLength blanks.before,
      offset + byteLength blanks.before + byteLength (lexeme token)⟩
    refine ⟨⟨token.kind, span⟩ :: moved, ?_, congrArg (List.cons token.kind) hkinds⟩
    rw [htext]
    exact .lexeme (blanks.isSpace_of_mem _ List.mem_cons_self) hlongest rfl rfl hmoved

end Blanks

/-- The same error at no position in particular. -/
def CompileError.unplaced : CompileError → CompileError
  | lex error => lex ⟨error.fault, 0⟩
  | parse error => parse error.unplaced
  | eval error => eval error

/-- What goes on after results that differ in their errors differs at most as they do. -/
theorem mapError_bind_congr {α β ε δ : Type} {first second : Except ε α} {f : ε → δ}
    (next : α → Except ε β) (h : first.mapError f = second.mapError f) :
    (first >>= next).mapError f = (second >>= next).mapError f := by
  cases first with
  | error error =>
    cases second with
    | error other => exact congrArg Except.error (Except.error.inj h)
    | ok value => cases h
  | ok value =>
    cases second with
    | error error => cases h
    | ok other => rw [Except.ok.inj h]

/-- Documents are made alike from tokens that are parsed alike. -/
theorem mapError_ofTokens_congr {δ : Type} {f : ParseError → δ} {tokens other : List Token}
    (h : (parse tokens).mapError f = (parse other).mapError f) :
    (Document.ofTokens tokens).mapError f = (Document.ofTokens other).mapError f := by
  cases htree : parse tokens with
  | error error =>
    cases hother : parse other with
    | error moved =>
      rw [htree, hother] at h
      rw [Document.ofTokens_eq_error htree, Document.ofTokens_eq_error hother]
      exact congrArg Except.error (Except.error.inj h)
    | ok root =>
      rw [htree, hother] at h
      cases h
  | ok root =>
    cases hother : parse other with
    | error error =>
      rw [htree, hother] at h
      cases h
    | ok same =>
      rw [htree, hother] at h
      obtain rfl : root = same := Except.ok.inj h
      rw [Document.ofTokens_eq_ok htree, Document.ofTokens_eq_ok hother]

/-- Tokens of a source are parsed to what the source is parsed to. -/
theorem parseSource_of_tokenize {source : String} {tokens : List Token}
    (h : tokenize source = .ok tokens) :
    parseSource source = (Document.ofTokens tokens).mapError .parse := by
  rw [parseSource, h]
  rfl

/-- Sources with tokens of the same kinds have the same document, or the same error but for its
position. -/
theorem mapError_parseSource_congr {source other : String} {tokens moved : List Token}
    (h : tokenize source = .ok tokens) (hother : tokenize other = .ok moved)
    (hkinds : kinds tokens = kinds moved) :
    (parseSource source).mapError CompileError.unplaced =
      (parseSource other).mapError CompileError.unplaced := by
  have hcommute (result : Except ParseError Document) :
      (result.mapError CompileError.parse).mapError CompileError.unplaced =
        (result.mapError ParseError.unplaced).mapError CompileError.parse := by
    cases result <;> rfl
  rw [parseSource_of_tokenize h, parseSource_of_tokenize hother, hcommute, hcommute,
    mapError_ofTokens_congr (mapError_parse_congr hkinds)]

/-- A source with other blanks around its lexemes. -/
def respaced (source : String) (tokens : List Token) (blanks : Blanks) : String :=
  .ofList (blanks.around (lexemesOf source tokens))

/-- A source that is scanned has tokens of the same kinds when other blanks are set around its
lexemes, and compiles to the same text or the same error but for its position. -/
theorem compile_respaced {source : String} {tokens : List Token} (h : tokenize source = .ok tokens)
    (blanks : Blanks) (hcount : blanks.after.length + 1 = tokens.length) :
    (∃ moved, tokenize (respaced source tokens blanks) = .ok moved ∧ kinds moved = kinds tokens) ∧
      ∀ spacing, (compile (respaced source tokens blanks) spacing).mapError CompileError.unplaced =
        (compile source spacing).mapError CompileError.unplaced := by
  obtain ⟨lexemes, htiling, htokens⟩ := Scanner.tiling_of_tokens h
  have hlexemes : lexemesOf source tokens =
      lexemes.map fun token => token.span.slice source.toList := by
    rw [lexemesOf, htokens, List.dropLast_concat]
  have hlength : blanks.after.length = lexemes.length := by
    rw [htokens, List.length_append, List.length_singleton] at hcount
    exact Nat.succ.inj hcount
  have hspells : ∀ token ∈ lexemes, Spells token.kind (token.span.slice source.toList) :=
    spells_slice htiling [] rfl
  obtain ⟨moved, hmoved, hkinds⟩ := blanks.exists_tiling_around hspells hlength 0
  have hscan : Scanner.tokens ⟨(respaced source tokens blanks).toList, 0, false⟩ =
      .ok (moved ++ [endToken (0 + byteLength (respaced source tokens blanks).toList)]) := by
    rw [respaced, hlexemes, String.toList_ofList]
    exact Scanner.tokens_of_tiling hmoved false
  have hall (offset : Nat) : kinds (moved ++ [endToken offset]) = kinds tokens := by
    rw [htokens, kinds, kinds, List.map_append, List.map_append]
    exact congrArg (· ++ [TokenKind.endOfInput]) hkinds
  refine ⟨⟨_, hscan, hall _⟩, fun spacing => ?_⟩
  refine mapError_bind_congr _ (mapError_bind_congr _ ?_)
  exact mapError_parseSource_congr hscan h (hall _)

/-- A sum without blanks. -/
def denseSum : String := "[1+2]"

/-- The tokens of a sum without whitespace. -/
def denseSumTokens : List Token :=
  [⟨.symbol .leftBracket, ⟨0, 1⟩⟩, ⟨.integer 1, ⟨1, 2⟩⟩, ⟨.symbol .plus, ⟨2, 3⟩⟩,
    ⟨.integer 2, ⟨3, 4⟩⟩, ⟨.symbol .rightBracket, ⟨4, 5⟩⟩, endToken 5]

/-- Blanks that set a sum on lines of its own. -/
def sumBlanks : Blanks where
  before := []
  after := [['\n', ' ', ' '], [' '], ['\t'], ['\r', '\n'], ['\n']]
  isSpace_of_mem := by simp [isSpace]
  ne_nil_of_mem := by decide

/-- A sum without whitespace is compiled as it is with blanks between its tokens. -/
theorem compile_respaced_denseSum :
    tokenize denseSum = .ok denseSumTokens ∧
      respaced denseSum denseSumTokens sumBlanks = "[\n  1 +\t2\r\n]\n" ∧
      (∃ moved, tokenize (respaced denseSum denseSumTokens sumBlanks) = .ok moved ∧
        kinds moved = kinds denseSumTokens) ∧
      ∀ spacing, (compile (respaced denseSum denseSumTokens sumBlanks) spacing).mapError
          CompileError.unplaced =
        (compile denseSum spacing).mapError CompileError.unplaced := by
  have htokens : tokenize denseSum = .ok denseSumTokens := by decide +kernel
  exact ⟨htokens, by decide +kernel, compile_respaced htokens sumBlanks rfl⟩

end JsonTemplate
