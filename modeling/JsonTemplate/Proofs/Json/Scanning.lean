import JsonTemplate.Proofs.Json.Spelling
import JsonTemplate.Proofs.Parser.Outcome
import JsonTemplate.Proofs.Scanner.Tiling

/-!
# The tokens of JSON texts

A supported JSON text is tiled by lexemes: the signs, the words, the strings with their quotes
and the numbers without their minus signs, which are lexemes of their own. What follows a value
is a blank, a comma, a closing bracket or the end, and none of them continues a lexeme.
-/

namespace JsonTemplate

namespace NumberSpelling

/-- The token of the unsigned number. -/
def magnitudeKind (number : NumberSpelling) : TokenKind :=
  if number.numeral.isFloat then .float number.numeral.double
  else .integer (readDigits number.numeral.whole)

/-- The kinds of the tokens of a number: its sign and its magnitude. -/
def tokenKinds (number : NumberSpelling) : List TokenKind :=
  (if number.negative then [.symbol .minus] else []) ++ [number.magnitudeKind]

end NumberSpelling

/-- The token of a string. -/
def unitsKind (units : List StringUnit) : TokenKind := .string (.ofList (unitsText units))

namespace Spelling

/-- The kinds of the tokens of a part. -/
def tokenKinds : {part : Part} → Spelling part → List TokenKind
  | _, null => [.keyword .null]
  | _, boolean true => [.keyword .true_]
  | _, boolean false => [.keyword .false_]
  | _, number spelled => spelled.tokenKinds
  | _, string units => [unitsKind units]
  | _, emptyArray _ => [.symbol .leftBracket, .symbol .rightBracket]
  | _, array items => .symbol .leftBracket :: items.tokenKinds ++ [.symbol .rightBracket]
  | _, emptyObject _ => [.symbol .leftBrace, .symbol .rightBrace]
  | _, object members => .symbol .leftBrace :: members.tokenKinds ++ [.symbol .rightBrace]
  | _, lastItem _ value _ => value.tokenKinds
  | _, item _ value _ rest => value.tokenKinds ++ .symbol .comma :: rest.tokenKinds
  | _, lastMember _ name _ _ value _ => unitsKind name :: .symbol .colon :: value.tokenKinds
  | _, member _ name _ _ value _ rest =>
    unitsKind name :: .symbol .colon :: value.tokenKinds ++ .symbol .comma :: rest.tokenKinds

end Spelling

/-- Whether lexemes of the given kinds tile a text, wherever it stands. -/
def Tiles (expected : List TokenKind) (text : List Char) : Prop :=
  ∀ offset, ∃ lexemes, Tiling offset text lexemes ∧ kinds lexemes = expected

/-- Whether a character can continue the lexeme of a value. -/
def Extends (c : Char) : Prop := isWordChar c ∨ c = '.'

/-- The characters of whitespace in JSON are blanks. -/
theorem isSpace_of_mem {c : Char} (h : c ∈ [' ', '\t', '\n', '\r']) : isSpace c := by
  simp only [List.mem_cons, List.not_mem_nil, or_false] at h
  rcases h with rfl | rfl | rfl | rfl <;> rfl

/-- Whitespace consists of blanks. -/
theorem Whitespace.all_isSpace (gap : Whitespace) : ∀ c ∈ gap.text, isSpace c :=
  fun c hc => isSpace_of_mem (gap.all_blank c hc)

/-- Whitespace alone has no tokens. -/
theorem tiles_blank (gap : Whitespace) : Tiles [] gap.text :=
  fun _ => ⟨[], .blank gap.all_isSpace, rfl⟩

namespace Tiles

variable {expected : List TokenKind} {rest : List Char}

/-- Whitespace in front adds no tokens. -/
theorem blank (h : Tiles expected rest) (gap : Whitespace) :
    Tiles expected (gap.text ++ rest) := by
  intro offset
  have hgap := gap.all_isSpace
  obtain ⟨lexemes, htiling, hkinds⟩ := h (offset + byteLength gap.text)
  refine ⟨lexemes, ?_, hkinds⟩
  cases htiling with
  | blank hrest =>
    refine .blank fun c hc => ?_
    rcases List.mem_append.mp hc with hc | hc
    · exact hgap c hc
    · exact hrest c hc
  | @lexeme _ start stop more word after kind tokens hmore hlongest hstart hstop hafter =>
    have htext : gap.text ++ (more ++ word ++ after) = gap.text ++ more ++ word ++ after := by
      simp only [List.append_assoc]
    rw [htext]
    refine .lexeme (fun c hc => ?_) hlongest ?_ hstop hafter
    · rcases List.mem_append.mp hc with hc | hc
      · exact hgap c hc
      · exact hmore c hc
    · rw [hstart, byteLength_append, Nat.add_assoc]

/-- A longest lexeme in front adds its token. -/
theorem lexeme {kind : TokenKind} {word : List Char} (h : Tiles expected rest)
    (hlongest : LongestLexeme kind word rest) : Tiles (kind :: expected) (word ++ rest) := by
  intro offset
  obtain ⟨lexemes, htiling, hkinds⟩ := h (offset + byteLength [] + byteLength word)
  refine ⟨_, .lexeme (fun c hc => absurd hc List.not_mem_nil) hlongest rfl rfl htiling, ?_⟩
  rw [kinds_cons, hkinds]

/-- A sign that no character continues. -/
theorem sign (h : Tiles expected rest) (sign : Symbol) (c : Char)
    (htext : sign.text.toList = [c])
    (hcontinues : ∀ word next, ¬Continues (.symbol sign) word next) :
    Tiles (.symbol sign :: expected) (c :: rest) := by
  have hlongest : LongestLexeme (.symbol sign) sign.text.toList rest :=
    ⟨.symbol sign, fun next _ => hcontinues _ next⟩
  have htiles := h.lexeme hlongest
  rwa [htext] at htiles

end Tiles

/-- The digit of four bits is a hexadecimal digit. -/
theorem hexDigit_char (nibble : Nibble) : HexDigit nibble.char := by
  obtain ⟨value, upper⟩ := nibble
  revert value upper
  unfold HexDigit
  decide

/-- The letters of escapes. -/
theorem mem_of_mem_escapes {letter decoded : Char} (h : (letter, decoded) ∈ escapes) :
    letter ∈ ['"', '\\', '/', 'b', 'f', 'n', 'r', 't'] :=
  List.mem_map_of_mem (f := Prod.fst) h

/-- What is written between quotes is the body of a string. -/
theorem stringBody_unitsText (units : List StringUnit) : StringBody (unitsText units) := by
  induction units with
  | nil => exact .nil
  | cons unit units ih =>
    cases unit with
    | plain c unescaped => exact .plain unescaped.2.1 unescaped.2.2 ih
    | escaped letter decoded escape => exact .simple (mem_of_mem_escapes escape) ih
    | numbered first second third fourth =>
      exact .numbered (hexDigit_char first) (hexDigit_char second) (hexDigit_char third)
        (hexDigit_char fourth) ih

/-- A quoted string in front adds its token. -/
theorem Tiles.quoted {expected : List TokenKind} {rest : List Char} (h : Tiles expected rest)
    (units : List StringUnit) : Tiles (unitsKind units :: expected) (quoted units ++ rest) :=
  h.lexeme ⟨.string (stringBody_unitsText units), fun _ _ => id⟩

/-- A digit may stand in a word. -/
theorem isWordChar_of_isDigit {c : Char} (h : c.isDigit) : isWordChar c := by
  simp [isWordChar, Char.isAlphanum, h]

/-- What continues a number is a digit, a point or the mark of an exponent. -/
theorem extends_of_continues_magnitude {number : NumberSpelling} {word : List Char} {c : Char}
    (h : Continues number.magnitudeKind word c) : Extends c := by
  unfold NumberSpelling.magnitudeKind at h
  split at h
  · rcases h with hdigit | ⟨-, rfl | rfl⟩
    · exact Or.inl (isWordChar_of_isDigit hdigit)
    · exact Or.inl rfl
    · exact Or.inl rfl
  · rcases h with hdigit | rfl | rfl | rfl
    · exact Or.inl (isWordChar_of_isDigit hdigit)
    · exact Or.inr rfl
    · exact Or.inl rfl
    · exact Or.inl rfl

namespace NumberSpelling

/-- A numeral without fraction and exponent is its digits. -/
theorem text_eq_whole {numeral : Numeral} (h : ¬numeral.isFloat) :
    numeral.text = numeral.whole := by
  obtain ⟨whole, fraction, exponent⟩ := numeral
  cases fraction <;> cases exponent <;>
    simp_all [Numeral.isFloat, Numeral.text, Numeral.fractionText, Numeral.exponentText]

/-- The magnitude of a supported integer is one of a token. -/
theorem readDigits_le {number : NumberSpelling} (h : number.Supported)
    (hfloat : ¬number.numeral.isFloat) : readDigits number.numeral.whole ≤ 2 ^ 63 := by
  rw [Supported, if_neg hfloat, integer] at h
  split at h <;> omega

/-- The unsigned number is spelled by its numeral. -/
theorem spells {number : NumberSpelling} (h : number.Supported) :
    Spells number.magnitudeKind number.numeral.text := by
  by_cases hfloat : number.numeral.isFloat
  · rw [Supported, if_pos hfloat] at h
    rw [magnitudeKind, if_pos hfloat]
    refine .float number.wellFormed ?_ h
    simpa [Numeral.isFloat] using hfloat
  · rw [magnitudeKind, if_neg hfloat, text_eq_whole hfloat]
    exact .integer number.wellFormed.whole_ne_nil number.wellFormed.whole (readDigits_le h hfloat)

/-- A number in front adds its tokens, where nothing follows that would continue it. -/
theorem tiles {number : NumberSpelling} (h : number.Supported) {expected : List TokenKind}
    {rest : List Char} (hstop : NotBefore Extends rest) (hrest : Tiles expected rest) :
    Tiles (number.tokenKinds ++ expected) (number.text ++ rest) := by
  have hmagnitude := hrest.lexeme ⟨spells h, hstop.mono fun c => extends_of_continues_magnitude⟩
  by_cases hnegative : number.negative
  · rw [tokenKinds, text, if_pos hnegative, if_pos hnegative]
    obtain ⟨first, more, htext, hdigit⟩ := Numeral.exists_text_eq_cons number.wellFormed
    rw [htext] at hmagnitude ⊢
    have hminus : LongestLexeme (.symbol .minus) ['-'] (first :: more ++ rest) := by
      refine ⟨.symbol .minus, notBefore_cons.mpr ?_⟩
      exact ne_of_isDigit hdigit (by decide)
    exact hmagnitude.lexeme hminus
  · rw [tokenKinds, text, if_neg hnegative, if_neg hnegative]
    exact hmagnitude

end NumberSpelling

/-- A keyword in front adds its token, where nothing follows that would continue it. -/
theorem Tiles.word {expected : List TokenKind} {rest : List Char} {word : Keyword}
    (h : Tiles expected rest) (hstop : NotBefore Extends rest) :
    Tiles (.keyword word :: expected) (word.text.toList ++ rest) :=
  h.lexeme ⟨.keyword word, hstop.mono fun _ => Or.inl⟩

/-- A comma continues nothing. -/
theorem notBefore_extends_comma {rest : List Char} : NotBefore Extends (',' :: rest) :=
  notBefore_cons.mpr (by simp [Extends, isWordChar])

/-- Whitespace in front of what continues nothing continues nothing. -/
theorem notBefore_extends_blank {gap : Whitespace} {rest : List Char}
    (h : NotBefore Extends rest) : NotBefore Extends (gap.text ++ rest) := by
  obtain ⟨text, hblank⟩ := gap
  cases text with
  | nil => exact h
  | cons c text =>
    apply notBefore_cons.mpr
    have hc := hblank c List.mem_cons_self
    simp only [List.mem_cons, List.not_mem_nil, or_false] at hc
    rcases hc with rfl | rfl | rfl | rfl <;> simp [Extends, isWordChar]

namespace Spelling

/-- A part of a supported text is tiled by its tokens, before anything that does not continue
them. -/
theorem tiles {part : Part} (spelling : Spelling part) (h : spelling.Supported)
    {expected : List TokenKind} {rest : List Char} (hstop : NotBefore Extends rest)
    (hrest : Tiles expected rest) :
    Tiles (spelling.tokenKinds ++ expected) (spelling.text ++ rest) := by
  induction spelling generalizing expected rest with
  | null => exact hrest.word hstop
  | boolean value =>
    cases value with
    | true => exact hrest.word hstop
    | false => exact hrest.word hstop
  | number spelled => exact NumberSpelling.tiles h hstop hrest
  | string units => exact hrest.quoted units
  | emptyArray inside =>
    have hclose := hrest.sign .rightBracket ']' rfl fun _ _ => id
    have hopen := (hclose.blank inside).sign .leftBracket '[' rfl fun _ _ => id
    simpa [text, tokenKinds] using hopen
  | array items ih =>
    have hclose := hrest.sign .rightBracket ']' rfl fun _ _ => id
    have hitems := ih h (notBefore_cons.mpr (by simp [Extends, isWordChar])) hclose
    have hopen := hitems.sign .leftBracket '[' rfl fun _ _ => id
    simpa [text, tokenKinds] using hopen
  | emptyObject inside =>
    have hclose := hrest.sign .rightBrace '}' rfl fun _ _ => id
    have hopen := (hclose.blank inside).sign .leftBrace '{' rfl fun _ _ => id
    simpa [text, tokenKinds] using hopen
  | object members ih =>
    have hclose := hrest.sign .rightBrace '}' rfl fun _ _ => id
    have hmembers := ih h (notBefore_cons.mpr (by simp [Extends, isWordChar])) hclose
    have hopen := hmembers.sign .leftBrace '{' rfl fun _ _ => id
    simpa [text, tokenKinds] using hopen
  | lastItem before value after ih =>
    have hvalue := ih h (notBefore_extends_blank hstop) (hrest.blank after)
    simpa [text, tokenKinds] using hvalue.blank before
  | item before value after rest ih ihRest =>
    have hcomma := (ihRest h.2 hstop hrest).sign .comma ',' rfl fun _ _ => id
    have hvalue := ih h.1 (notBefore_extends_blank notBefore_extends_comma) (hcomma.blank after)
    simpa [text, tokenKinds] using hvalue.blank before
  | lastMember before name beforeColon afterColon value after ih =>
    have hvalue := ih h.2 (notBefore_extends_blank hstop) (hrest.blank after)
    have hcolon := (hvalue.blank afterColon).sign .colon ':' rfl fun _ _ => id
    have hname := (hcolon.blank beforeColon).quoted name
    simpa [text, tokenKinds] using hname.blank before
  | member before name beforeColon afterColon value after rest ih ihRest =>
    have hcomma := (ihRest h.2.2 hstop hrest).sign .comma ',' rfl fun _ _ => id
    have hvalue := ih h.2.1 (notBefore_extends_blank notBefore_extends_comma) (hcomma.blank after)
    have hcolon := (hvalue.blank afterColon).sign .colon ':' rfl fun _ _ => id
    have hname := (hcolon.blank beforeColon).quoted name
    simpa [text, tokenKinds] using hname.blank before

end Spelling

/-- The tokens of a tiling are all that stands before the end of the input. -/
theorem beforeEnd_of_tiling {offset position : Nat} {text : List Char} {lexemes : List Token}
    (h : Tiling offset text lexemes) : beforeEnd (lexemes ++ [endToken position]) = lexemes := by
  refine takeWhile_append_of_notBefore ?_ (notBefore_cons.mpr (by simp [endToken]))
  induction h with
  | blank => exact fun _ htoken => absurd htoken List.not_mem_nil
  | lexeme _ hlongest _ _ _ ih =>
    intro token htoken
    rcases List.mem_cons.mp htoken with rfl | htoken
    · simpa using Scanner.ne_endOfInput_of_longestLexeme hlongest
    · exact ih token htoken

/-- A supported document is scanned, and its tokens are those of its root. -/
theorem DocumentSpelling.exists_tokenize {document : DocumentSpelling}
    (h : document.root.Supported) :
    ∃ tokens, tokenize document.text = .ok tokens ∧
      kinds (beforeEnd tokens) = document.root.tokenKinds := by
  have hend : NotBefore Extends (document.after.text ++ []) :=
    notBefore_extends_blank (notBefore_nil _)
  have hafter : Tiles [] (document.after.text ++ []) := by
    rw [List.append_nil]
    exact tiles_blank document.after
  obtain ⟨lexemes, htiling, hkinds⟩ :=
    ((document.root.tiles h hend hafter).blank document.before) 0
  have htext : Tiling 0 document.text.toList lexemes := by
    simpa [DocumentSpelling.text] using htiling
  refine ⟨_, Scanner.tokens_of_tiling htext false, ?_⟩
  rw [beforeEnd_of_tiling htiling, hkinds, List.append_nil]

end JsonTemplate
