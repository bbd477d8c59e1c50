import JsonTemplate.Proofs.Scanner.Bodies
import JsonTemplate.Proofs.Scanner.Numerals

/-!
# The lexemes that are read

One lexeme is read from the front of a text as a token exactly when the text starts with the
longest lexeme of that token's kind. For each class of lexemes the first character decides
that no other class applies, so the classes are treated one by one.
-/

namespace JsonTemplate

namespace Symbol

/-- A pair of characters is the symbol that is spelled so. -/
theorem ofPair?_eq_some_iff {c d : Char} {sign : Symbol} :
    ofPair? c d = some sign ↔ sign.text.toList = [c, d] := by
  constructor
  · intro h
    unfold ofPair? at h
    split at h <;> cases h <;> rfl
  · intro h
    cases sign <;> cases h <;> rfl

/-- A character is the symbol that is spelled so. -/
theorem ofChar?_eq_some_iff {c : Char} {sign : Symbol} :
    ofChar? c = some sign ↔ sign.text.toList = [c] := by
  constructor
  · intro h
    unfold ofChar? at h
    split at h <;> cases h <;> rfl
  · intro h
    cases sign <;> cases h <;> rfl

/-- The text of a symbol has one or two characters. -/
theorem text_eq (sign : Symbol) :
    (∃ c, sign.text.toList = [c]) ∨ ∃ c d, sign.text.toList = [c, d] := by
  cases sign <;> first | exact Or.inl ⟨_, rfl⟩ | exact Or.inr ⟨_, _, rfl⟩

/-- The pairs of characters that are symbols. -/
theorem isSome_ofPair?_iff (c d : Char) :
    (ofPair? c d).isSome ↔
      c = '-' ∧ d = '>' ∨ (c = '=' ∨ c = '!' ∨ c = '<' ∨ c = '>') ∧ d = '=' := by
  unfold ofPair?
  split <;> grind

/-- A symbol of one character is continued by what makes a pair of it. -/
theorem continues_iff {sign : Symbol} {c : Char} (h : sign.text.toList = [c]) (word : List Char)
    (next : Char) : Continues (.symbol sign) word next ↔ (ofPair? c next).isSome := by
  rw [isSome_ofPair?_iff]
  have h := ofChar?_eq_some_iff.mpr h
  unfold ofChar? at h
  split at h <;> cases h <;> simp [Continues]

/-- Nothing continues a symbol of two characters. -/
theorem not_continues {sign : Symbol} {c d : Char} (h : sign.text.toList = [c, d])
    (word : List Char) (next : Char) : ¬Continues (.symbol sign) word next := by
  cases sign <;> cases h <;> exact id

/-- The characters that start words, numerals and string literals start no symbol. -/
theorem ofChar?_eq_none {c : Char} (h : c.isAlphanum ∨ c = '"') : ofChar? c = none := by
  unfold ofChar?
  split <;> first | rfl | (revert h; decide)

/-- No symbol of two characters starts with a letter, a digit or a quotation mark. -/
theorem ofPair?_eq_none {c : Char} (h : c.isAlphanum ∨ c = '"') (d : Char) :
    ofPair? c d = none := by
  unfold ofPair?
  split <;> first | rfl | (revert h; decide)

end Symbol

namespace Keyword

/-- All keywords are among all keywords. -/
theorem mem_all (word : Keyword) : word ∈ all := by cases word <;> decide

/-- No two keywords are spelled alike. -/
theorem text_injective {word other : Keyword} (h : word.text = other.text) : word = other := by
  revert h
  cases word <;> cases other <;> decide

/-- A text is the keyword that is spelled so. -/
theorem ofText?_eq_some_iff {text : String} {word : Keyword} :
    ofText? text = some word ↔ word.text = text := by
  constructor
  · intro h
    simpa using List.find?_some h
  · rintro rfl
    cases h : ofText? word.text with
    | none => simpa using List.find?_eq_none.mp h word (mem_all word)
    | some other => exact congrArg some (text_injective (by simpa using List.find?_some h))

/-- A keyword consists of letters. -/
theorem all_isAlpha (word : Keyword) : ∀ c ∈ word.text.toList, c.isAlpha := by
  have hall : word.text.toList.all Char.isAlpha = true := by cases word <;> decide
  exact List.all_eq_true.mp hall

/-- Every keyword has a first character. -/
theorem exists_text_eq_cons (word : Keyword) :
    ∃ first more, word.text.toList = first :: more := by
  cases word <;> exact ⟨_, _, rfl⟩

end Keyword

namespace Numeral

/-- A numeral has no exponent if there is no letter for one in its text. -/
theorem exponent_eq_none_iff {numeral : Numeral} (h : numeral.WellFormed) :
    numeral.exponent = none ↔ 'e' ∉ numeral.text ∧ 'E' ∉ numeral.text := by
  have hwhole (c : Char) (hc : ¬c.isDigit) : c ∉ numeral.whole := fun hm => hc (h.whole c hm)
  have hfraction (c : Char) (hc : ¬c.isDigit) (hp : c ≠ '.') :
      c ∉ fractionText numeral.fraction := by
    cases hf : numeral.fraction with
    | none => exact List.not_mem_nil
    | some digits =>
      intro hm
      rcases List.mem_cons.mp hm with rfl | hm
      · exact hp rfl
      · exact hc (h.fraction digits hf c hm)
  constructor
  · intro he
    have hnot (c : Char) (hc : ¬c.isDigit) (hp : c ≠ '.') : c ∉ numeral.text := by
      simp [Numeral.text, he, exponentText, hwhole c hc, hfraction c hc hp]
    exact ⟨hnot 'e' (by decide) (by decide), hnot 'E' (by decide) (by decide)⟩
  · rintro ⟨hsmall, hcapital⟩
    cases he : numeral.exponent with
    | none => rfl
    | some exponent =>
      have hmem : exponent.mark ∈ numeral.text := by
        simp [Numeral.text, he, exponentText, Exponent.text]
      rcases (h.exponent exponent he).mark with hm | hm <;> rw [hm] at hmem
      · exact absurd hmem hsmall
      · exact absurd hmem hcapital

/-- What continues a numeral's token is what continues the numeral. -/
theorem continues_iff {numeral : Numeral} (h : numeral.WellFormed) {kind : TokenKind}
    (hkind : numeral.kind? = some kind) (next : Char) :
    Continues kind numeral.text next ↔ numeral.ContinuedBy next := by
  unfold kind? at hkind
  split at hkind
  · rename_i hfloat
    split at hkind <;> cases hkind
    simp only [Continues, ContinuedBy, ← exponent_eq_none_iff h]
    simp only [isFloat, Bool.or_eq_true] at hfloat
    cases hf : numeral.fraction <;> cases he : numeral.exponent <;> simp_all
  · rename_i hfloat
    dsimp only at hkind
    split at hkind <;> cases hkind
    simp only [isFloat, Bool.or_eq_true, not_or, Bool.not_eq_true, Option.isSome_eq_false_iff,
      Option.isNone_iff_eq_none] at hfloat
    simp only [Continues, ContinuedBy, hfloat.1, hfloat.2, true_and]
    grind

/-- The token of a numeral spells the numeral. -/
theorem spells_of_kind? {numeral : Numeral} {kind : TokenKind}
    (h : numeral.isCut = false → numeral.WellFormed) (hkind : numeral.kind? = some kind) :
    numeral.WellFormed ∧ Spells kind numeral.text := by
  unfold kind? at hkind
  split at hkind
  · rename_i hfloat
    split at hkind <;> cases hkind
    rename_i hfinite
    simp only [Bool.and_eq_true, Bool.not_eq_true'] at hfinite
    have hwell := h hfinite.1
    exact ⟨hwell, .float hwell (by simpa [isFloat] using hfloat) hfinite.2⟩
  · rename_i hfloat
    dsimp only at hkind
    split at hkind <;> cases hkind
    rename_i hle
    simp only [isFloat, Bool.or_eq_true, not_or, Bool.not_eq_true, Option.isSome_eq_false_iff,
      Option.isNone_iff_eq_none] at hfloat
    have hwell := h (by simp [isCut, hfloat.2])
    have htext : numeral.text = numeral.whole := by
      simp [Numeral.text, hfloat.1, hfloat.2, fractionText, exponentText]
    rw [htext]
    exact ⟨hwell, .integer hwell.whole_ne_nil hwell.whole hle⟩

/-- A finite numeral with a fraction or an exponent is a float. -/
theorem kind?_of_float {numeral : Numeral} (h : numeral.WellFormed)
    (hfloat : numeral.fraction.isSome ∨ numeral.exponent.isSome)
    (hfinite : numeral.double.isFinite) : numeral.kind? = some (.float numeral.double) := by
  have hcut : numeral.isCut = false := by
    cases he : numeral.exponent with
    | none => simp [isCut, he]
    | some exponent => simp [isCut, he, (h.exponent exponent he).digits_ne_nil]
  rw [kind?, if_pos (by simpa [isFloat] using hfloat), if_pos (by simp [hcut, hfinite])]

/-- Digits alone are an integer, up to the magnitude of the least one. -/
theorem kind?_of_integer {digits : List Char} (hle : readDigits digits ≤ 2 ^ 63) :
    kind? ⟨digits, none, none⟩ = some (.integer (readDigits digits)) := by
  rw [kind?, if_neg (by simp [isFloat])]
  exact if_pos hle

/-- A well-formed numeral starts with a digit. -/
theorem exists_text_eq_cons {numeral : Numeral} (h : numeral.WellFormed) :
    ∃ first more, numeral.text = first :: more ∧ first.isDigit := by
  obtain ⟨first, more, hwhole⟩ := List.exists_cons_of_ne_nil h.whole_ne_nil
  exact ⟨first, _, by rw [Numeral.text, hwhole, List.cons_append, List.cons_append],
    h.whole first (by simp [hwhole])⟩

end Numeral

namespace Lexeme

/-- No pair is read where the next character makes none. -/
theorem readPair?_eq_none {c : Char} {rest : List Char}
    (h : ∀ next ∈ rest.head?, Symbol.ofPair? c next = none) : readPair? (c :: rest) = none := by
  cases rest with
  | nil => rfl
  | cons d rest => rw [readPair?, h d rfl, Option.map_none]

/-- Words, numerals and string literals are no symbols. -/
theorem read_of_not_symbol {c : Char} (h : c.isAlphanum ∨ c = '"') (rest : List Char) :
    read c rest =
      if c = '"' then readString rest
      else if c.isAlpha then readWord (c :: rest)
      else if c.isDigit then readNumeral (c :: rest)
      else ⟨[], c :: rest, .error (.unexpectedCharacter c, 0)⟩ := by
  have hbang : c ≠ '!' := by
    rintro rfl
    revert h
    decide
  rw [read, readPair?_eq_none fun next _ => Symbol.ofPair?_eq_none h next,
    Symbol.ofChar?_eq_none h]
  exact if_neg hbang

/-- A quotation mark starts a string. -/
theorem read_quote (rest : List Char) : read '"' rest = readString rest := by
  rw [read_of_not_symbol (Or.inr rfl)]
  rfl

/-- A letter starts a word. -/
theorem read_alpha {c : Char} (h : c.isAlpha) (rest : List Char) :
    read c rest = readWord (c :: rest) := by
  have hquote : c ≠ '"' := by
    rintro rfl
    cases h
  rw [read_of_not_symbol (Or.inl (by simp [Char.isAlphanum, h])), if_neg hquote, if_pos h]

/-- No digit is a letter. -/
theorem not_isAlpha_of_isDigit {c : Char} (h : c.isDigit) : ¬c.isAlpha := by
  obtain ⟨-, hdigit⟩ := (Bool.and_eq_true _ _).mp h
  have hle : c.val.toNat ≤ 57 := of_decide_eq_true hdigit
  intro halpha
  rcases (Bool.or_eq_true _ _).mp halpha with hupper | hlower
  · have hge : 65 ≤ c.val.toNat := (of_decide_eq_true hupper).1
    omega
  · obtain ⟨hletter, -⟩ := (Bool.and_eq_true _ _).mp hlower
    have hge : 97 ≤ c.val.toNat := of_decide_eq_true hletter
    omega

/-- A digit starts a numeral. -/
theorem read_digit {c : Char} (h : c.isDigit) (rest : List Char) :
    read c rest = readNumeral (c :: rest) := by
  rw [read_of_not_symbol (Or.inl (by simp [Char.isAlphanum, h])),
    if_neg (ne_of_isDigit h (by decide)), if_neg (not_isAlpha_of_isDigit h), if_pos h]

/-- A word is the longest lexeme where no further character of a word follows. -/
theorem longestLexeme_wordKind {first : Char} {more rest : List Char} (hfirst : first.isAlpha)
    (hmore : ∀ c ∈ more, isWordChar c) (hrest : NotBefore (isWordChar ·) rest) :
    LongestLexeme (wordKind (first :: more)) (first :: more) rest := by
  unfold wordKind
  split
  · rename_i word hword
    rw [Keyword.ofText?_eq_some_iff] at hword
    have htext : first :: more = word.text.toList := by rw [hword, String.toList_ofList]
    rw [htext]
    exact ⟨.keyword word, hrest⟩
  · rename_i hnone
    refine ⟨.identifier hfirst hmore fun word hword => ?_, hrest⟩
    have hsome := Keyword.ofText?_eq_some_iff.mpr (String.ofList_toList (s := word.text)).symm
    rw [hword, hnone] at hsome
    cases hsome

/-- A word that is read is the longest lexeme. -/
theorem longestLexeme_readWord {first : Char} {more : List Char} {kind : TokenKind}
    (hfirst : first.isAlpha) (h : (readWord (first :: more)).outcome = .ok kind) :
    LongestLexeme kind (readWord (first :: more)).consumed (readWord (first :: more)).rest := by
  have hword : isWordChar first := by simp [isWordChar, Char.isAlphanum, hfirst]
  cases h
  simp only [readWord, List.takeWhile_cons_of_pos hword, List.dropWhile_cons_of_pos hword]
  exact longestLexeme_wordKind hfirst (all_takeWhile _ _) (notBefore_dropWhile _ _)

/-- A numeral that is read is the longest lexeme. -/
theorem longestLexeme_readNumeral {first : Char} {more : List Char} {kind : TokenKind}
    (hfirst : first.isDigit) (h : (readNumeral (first :: more)).outcome = .ok kind) :
    LongestLexeme kind (readNumeral (first :: more)).consumed
      (readNumeral (first :: more)).rest := by
  obtain ⟨hwell, hrest⟩ := Numeral.wellFormed_read hfirst more
  simp only [readNumeral] at h ⊢
  split at h
  · rename_i kind' hkind
    cases h
    obtain ⟨hwell, hspells⟩ := Numeral.spells_of_kind? hwell hkind
    exact ⟨hspells, hrest.mono fun c hc => (Numeral.continues_iff hwell hkind c).mp hc⟩
  · cases h

/-- A string that is read is the longest lexeme. -/
theorem longestLexeme_readString {text : List Char} {kind : TokenKind}
    (h : (readString text).outcome = .ok kind) :
    LongestLexeme kind (readString text).consumed (readString text).rest := by
  simp only [readString] at h ⊢
  split at h <;> cases h
  rename_i hclosed
  obtain ⟨hbody, htail⟩ := Body.stringBody_of_read hclosed
  rw [htail]
  exact ⟨.string hbody, fun _ _ => id⟩

/-- A token that is read spells the longest lexeme at the front of the text. -/
theorem longestLexeme_of_read {c : Char} {rest : List Char} {kind : TokenKind}
    (h : (read c rest).outcome = .ok kind) :
    LongestLexeme kind (read c rest).consumed (read c rest).rest := by
  unfold read at h ⊢
  split at h
  · rename_i lexeme hpair
    unfold readPair? at hpair
    split at hpair
    · obtain ⟨sign, hsign, rfl⟩ := Option.map_eq_some_iff.mp hpair
      cases h
      have htext := Symbol.ofPair?_eq_some_iff.mp hsign
      dsimp only
      rw [← htext]
      exact ⟨.symbol sign, fun next _ => Symbol.not_continues htext _ next⟩
    · cases hpair
  · rename_i hpair
    split at h
    · rename_i sign hsign
      cases h
      have htext := Symbol.ofChar?_eq_some_iff.mp hsign
      dsimp only
      rw [← htext]
      refine ⟨.symbol sign, fun next hnext hcontinues => ?_⟩
      rw [Symbol.continues_iff htext] at hcontinues
      cases rest with
      | nil => cases hnext
      | cons d rest =>
        cases hnext
        rw [readPair?, Option.map_eq_none_iff] at hpair
        rw [hpair] at hcontinues
        cases hcontinues
    · by_cases hbang : c = '!'
      · rw [if_pos hbang] at h
        cases h
      · rw [if_neg hbang] at h ⊢
        by_cases hquote : c = '"'
        · rw [if_pos hquote] at h ⊢
          exact longestLexeme_readString h
        · rw [if_neg hquote] at h ⊢
          by_cases halpha : c.isAlpha
          · rw [if_pos halpha] at h ⊢
            exact longestLexeme_readWord halpha h
          · rw [if_neg halpha] at h ⊢
            by_cases hdigit : c.isDigit
            · rw [if_pos hdigit] at h ⊢
              exact longestLexeme_readNumeral hdigit h
            · rw [if_neg hdigit] at h
              cases h

/-- A symbol is read where nothing follows that would continue it. -/
theorem read_symbol {sign : Symbol} {rest : List Char}
    (hrest : NotBefore (Continues (.symbol sign) sign.text.toList) rest) :
    ∃ c more, sign.text.toList = c :: more ∧
      read c (more ++ rest) = ⟨sign.text.toList, rest, .ok (.symbol sign)⟩ := by
  rcases sign.text_eq with ⟨c, htext⟩ | ⟨c, d, htext⟩
  · refine ⟨c, [], htext, ?_⟩
    have hpair : readPair? (c :: rest) = none := by
      refine readPair?_eq_none fun next hnext => ?_
      have := hrest next hnext
      rw [Symbol.continues_iff htext] at this
      simpa using this
    rw [List.nil_append, read, hpair, Symbol.ofChar?_eq_some_iff.mpr htext, htext]
  · refine ⟨c, [d], htext, ?_⟩
    rw [List.singleton_append, read, readPair?, Symbol.ofPair?_eq_some_iff.mpr htext, htext]
    rfl

/-- The longest word is read. -/
theorem read_word {first : Char} {more rest : List Char} (hfirst : first.isAlpha)
    (hmore : ∀ c ∈ more, isWordChar c) (hrest : NotBefore (isWordChar ·) rest) :
    read first (more ++ rest) = ⟨first :: more, rest, .ok (wordKind (first :: more))⟩ := by
  have hall : ∀ c ∈ first :: more, isWordChar c := by
    intro c hc
    rcases List.mem_cons.mp hc with rfl | hc
    · simp [isWordChar, Char.isAlphanum, hfirst]
    · exact hmore c hc
  rw [read_alpha hfirst, readWord, ← List.cons_append, takeWhile_append_of_notBefore hall hrest,
    dropWhile_append_of_notBefore hall hrest]

/-- A numeral whose value is in range is read. -/
theorem read_numeral {numeral : Numeral} {kind : TokenKind} {rest : List Char}
    (hwell : numeral.WellFormed) (hkind : numeral.kind? = some kind)
    (hrest : NotBefore (Continues kind numeral.text) rest) :
    ∃ first more, numeral.text = first :: more ∧
      read first (more ++ rest) = ⟨numeral.text, rest, .ok kind⟩ := by
  obtain ⟨first, more, htext, hdigit⟩ := Numeral.exists_text_eq_cons hwell
  refine ⟨first, more, htext, ?_⟩
  have hread := Numeral.read_text_append hwell
    (hrest.mono fun c hc => (Numeral.continues_iff hwell hkind c).mpr hc)
  rw [read_digit hdigit, ← List.cons_append, ← htext]
  simp only [readNumeral, hread, hkind]

/-- The longest lexeme at the front of a text is read, as a token of its kind. -/
theorem read_of_longestLexeme {kind : TokenKind} {word rest : List Char}
    (h : LongestLexeme kind word rest) :
    ∃ c more, word = c :: more ∧ read c (more ++ rest) = ⟨word, rest, .ok kind⟩ := by
  obtain ⟨hspells, hrest⟩ := h
  cases hspells with
  | keyword word =>
    obtain ⟨first, more, htext⟩ := word.exists_text_eq_cons
    refine ⟨first, more, htext, ?_⟩
    have halpha := word.all_isAlpha
    rw [htext] at halpha ⊢
    have hkind : wordKind (first :: more) = .keyword word := by
      rw [wordKind, ← htext, String.ofList_toList, Keyword.ofText?_eq_some_iff.mpr rfl]
    rw [← hkind]
    refine read_word (halpha first List.mem_cons_self) (fun c hc => ?_) hrest
    simp [isWordChar, Char.isAlphanum, halpha c (List.mem_cons_of_mem _ hc)]
  | @identifier first more hfirst hmore hkeyword =>
    refine ⟨first, more, rfl, ?_⟩
    have hkind : wordKind (first :: more) = .identifier (.ofList (first :: more)) := by
      unfold wordKind
      split
      · rename_i word hword
        rw [Keyword.ofText?_eq_some_iff] at hword
        exact absurd (by rw [hword, String.toList_ofList]) (hkeyword word)
      · rfl
    rw [← hkind]
    exact read_word hfirst hmore hrest
  | integer hne hdigits hle =>
    have hwell : Numeral.WellFormed ⟨word, none, none⟩ :=
      ⟨hdigits, hne, by simp, by simp⟩
    have htext : Numeral.text ⟨word, none, none⟩ = word := by
      simp [Numeral.text, Numeral.fractionText, Numeral.exponentText]
    have hread := read_numeral hwell (Numeral.kind?_of_integer hle) (htext.symm ▸ hrest)
    rwa [htext] at hread
  | float hwell hfloat hfinite =>
    exact read_numeral hwell (Numeral.kind?_of_float hwell hfloat hfinite) hrest
  | @string body hbody =>
    refine ⟨'"', body ++ ['"'], rfl, ?_⟩
    have hread := Body.read_append_quote hbody rest
    rw [List.append_assoc, List.singleton_append, read_quote]
    simp only [readString, hread]
  | symbol sign => exact read_symbol hrest

/-- Blanks start no lexeme. -/
theorem not_isSpace_of_longestLexeme {kind : TokenKind} {c : Char} {more rest : List Char}
    (h : LongestLexeme kind (c :: more) rest) : ¬isSpace c := by
  obtain ⟨d, more', hcons, hread⟩ := read_of_longestLexeme h
  cases hcons
  intro hspace
  have hc : c = ' ' ∨ c = '\t' ∨ c = '\n' ∨ c = '\r' := by simpa [isSpace, or_assoc] using hspace
  have hnone : readPair? (c :: (more ++ rest)) = none :=
    readPair?_eq_none fun next _ => by rcases hc with rfl | rfl | rfl | rfl <;> rfl
  rcases hc with rfl | rfl | rfl | rfl <;>
    · rw [read, hnone] at hread
      cases hread

end Lexeme

end JsonTemplate
