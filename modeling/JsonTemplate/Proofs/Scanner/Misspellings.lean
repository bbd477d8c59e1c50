import JsonTemplate.Proofs.Scanner.Calls

/-!
# Lexemes that cannot be read

What stands at the front of a text where no lexeme can be read, for each fault, and how many bytes
further on the fault is reported. Most faults are reported at the front; an escape that does not
exist, and a backslash as the last character of all, are reported where the backslash is.

A lexeme is read without a look at what is far behind it: as long as some text is left, more text at
the end makes no difference.
-/

namespace JsonTemplate

/-- A misspelt lexeme at the front of a text, its fault, the bytes before the place of the fault and
the text that is left when it is reported. -/
inductive Misspelling : List Char → LexFault → Nat → List Char → Prop
  | unexpectedCharacter {c : Char} {more : List Char} :
      (∀ kind word, Spells kind word → word.head? ≠ some c) →
      Misspelling (c :: more) (.unexpectedCharacter c) 0 (c :: more)
  | loneBang {more : List Char} :
      NotBefore (· = '=') more → Misspelling ('!' :: more) .loneBang 0 more
  /-- The whole numeral is an integer beyond the greatest one. -/
  | integer {digits rest : List Char} :
      digits ≠ [] → AllDigits digits → 2 ^ 63 < readDigits digits →
      NotBefore (fun c => c.isDigit ∨ c = '.' ∨ c = 'e' ∨ c = 'E') rest →
      Misspelling (digits ++ rest) (.invalidInteger digits) 0 rest
  /-- The whole numeral has an exponent without digits, or it is a double beyond the greatest
  one. -/
  | float {numeral : Numeral} {rest : List Char} :
      numeral.text ≠ [] → numeral.isFloat → numeral.isCut ∨ ¬numeral.double.isFinite →
      NotBefore numeral.ContinuedBy rest →
      Misspelling (numeral.text ++ rest) (.invalidFloat numeral.text) 0 rest
  /-- The literal is correct up to a backslash that starts no escape. -/
  | escape {body bad rest : List Char} :
      StringBody body → bad ≠ [] →
      (∀ escape, StringBody escape → escape <+: '\\' :: (bad ++ rest) → escape = []) →
      Misspelling ('"' :: body ++ '\\' :: (bad ++ rest)) .invalidEscape
        (byteLength ('"' :: body)) rest
  | unclosed {body : List Char} :
      StringBody body → Misspelling ('"' :: body) .unterminatedString 0 []
  | lastBackslash {body : List Char} :
      StringBody body →
      Misspelling ('"' :: body ++ ['\\']) .unterminatedString (byteLength ('"' :: body)) []

/-- A fault is reported at a character of the misspelt lexeme. -/
theorem Misspelling.exists_split {text rest : List Char} {fault : LexFault} {distance : Nat}
    (h : Misspelling text fault distance rest) :
    ∃ front back, text = front ++ back ∧ back ≠ [] ∧ byteLength front = distance := by
  cases h with
  | escape | lastBackslash => exact ⟨_, _, rfl, List.cons_ne_nil _ _, rfl⟩
  | unexpectedCharacter | loneBang | unclosed => exact ⟨[], _, rfl, List.cons_ne_nil _ _, rfl⟩
  | integer hne | float hne => exact ⟨[], _, rfl, List.append_ne_nil_of_left_ne_nil hne _, rfl⟩

namespace Body

/-- What stands behind the raw text of a literal, and what is left, for each way to end. -/
inductive Ends : BodyEnd → List Char → List Char → Prop
  | closed {rest : List Char} : Ends .closed ['"'] rest
  | unclosed : Ends .unclosed [] []
  | badEscape {bad rest : List Char} : bad ≠ [] →
      (∀ escape, StringBody escape → escape <+: '\\' :: (bad ++ rest) → escape = []) →
      Ends .badEscape ('\\' :: bad) rest
  | lastBackslash : Ends .lastBackslash ['\\'] []

/-- After a backslash that starts a string body an escape is complete. -/
theorem readEscape_of_stringBody {escape tail : List Char} (h : StringBody escape)
    (hne : escape ≠ []) (hfront : escape <+: '\\' :: tail) : (readEscape tail).2.2 = true := by
  obtain ⟨back, hback⟩ := hfront
  cases h with
  | nil => exact absurd rfl hne
  | plain _ hbackslash =>
    cases hback
    exact absurd rfl hbackslash
  | simple hc =>
    cases hback
    exact congrArg (·.2.2) (readEscape_of_simple hc)
  | numbered h₁ h₂ h₃ h₄ =>
    cases hback
    exact congrArg (·.2.2) (readEscape_of_numbered h₁ h₂ h₃ h₄)

/-- An escape takes at least one character, unless the text has ended. -/
theorem readEscape_ne_nil {text : List Char} (h : text ≠ []) : (readEscape text).1 ≠ [] := by
  unfold readEscape
  split
  · exact absurd rfl h
  · exact List.cons_ne_nil _ _
  · exact List.cons_ne_nil _ _

/-- The body of a string ends in one of the ways in which bodies end. -/
theorem ends_read (text : List Char) :
    Ends (read text).ending (read text).tail (read text).rest := by
  fun_induction read text with
  | case1 => exact .unclosed
  | case2 => exact .closed
  | case3 => exact .lastBackslash
  | case4 rest escape _ _ _ ih => exact ih
  | case5 rest escape hempty hescape =>
    refine .badEscape (readEscape_ne_nil (by simpa using hempty)) fun body hbody hfront => ?_
    by_contra hne
    rw [readEscape_append] at hfront
    exact hescape (readEscape_of_stringBody hbody hne hfront)
  | case6 c rest _ _ ih => exact ih

/-- The raw text that is read is a string body, however the literal ends. -/
theorem stringBody_raw (text : List Char) : StringBody (read text).raw := by
  fun_induction read text with
  | case1 | case2 | case3 | case5 => exact .nil
  | case4 rest escape _ hescape _ ih => exact stringBody_of_readEscape hescape ih
  | case6 c rest hquote hbackslash ih => exact .plain hquote hbackslash ih

end Body

namespace Lexeme

/-- A string that cannot be read is misspelt. -/
theorem misspelling_of_readString {text : List Char} {fault : LexFault} {distance : Nat}
    (h : (readString text).outcome = .error (fault, distance)) :
    Misspelling ('"' :: text) fault distance (readString text).rest := by
  have hbody := Body.stringBody_raw text
  have hends := Body.ends_read text
  have hsplit := Body.append_read text
  simp only [readString] at h ⊢
  generalize Body.read text = body at *
  obtain ⟨raw, tail, rest, ending⟩ := body
  obtain rfl : raw ++ tail ++ rest = text := hsplit
  cases hends with
  | closed => cases h
  | unclosed =>
    cases h
    rw [List.append_nil, List.append_nil]
    exact .unclosed hbody
  | badEscape hne hbad =>
    cases h
    rw [List.append_assoc]
    exact .escape hbody hne hbad
  | lastBackslash =>
    cases h
    rw [List.append_nil]
    exact .lastBackslash hbody

end Lexeme

namespace Numeral

variable {numeral : Numeral}

/-- A float without a token has a fraction or an exponent that is cut off, or is too great. -/
theorem isCut_or_of_kind?_eq_none (h : numeral.kind? = none) (hfloat : numeral.isFloat) :
    numeral.isCut ∨ ¬numeral.double.isFinite := by
  rw [kind?, if_pos hfloat] at h
  split at h
  · cases h
  · rename_i hrefused
    simpa only [Bool.and_eq_true, Bool.not_eq_true', not_and_or, Bool.not_eq_false] using hrefused

/-- An integer that is no token is too large. -/
theorem exists_digits_of_kind?_eq_none (h : numeral.kind? = none) (hfloat : ¬numeral.isFloat) :
    ∃ digits, numeral = ⟨digits, none, none⟩ ∧ 2 ^ 63 < readDigits digits := by
  rw [kind?, if_neg hfloat] at h
  dsimp only at h
  split at h
  · cases h
  rename_i hlarge
  obtain ⟨whole, fraction, exponent⟩ := numeral
  simp only [isFloat, Bool.or_eq_true, not_or, Bool.not_eq_true, Option.isSome_eq_false_iff,
    Option.isNone_iff_eq_none] at hfloat
  obtain ⟨rfl, rfl⟩ := hfloat
  exact ⟨whole, rfl, Nat.lt_of_not_le hlarge⟩

end Numeral

namespace Lexeme

/-- A numeral that cannot be read is misspelt. -/
theorem misspelling_of_readNumeral {first : Char} {more : List Char} (hfirst : first.isDigit)
    {fault : LexFault} {distance : Nat}
    (h : (readNumeral (first :: more)).outcome = .error (fault, distance)) :
    Misspelling (first :: more) fault distance (readNumeral (first :: more)).rest := by
  obtain ⟨hwell, hlongest⟩ := Numeral.wellFormed_read hfirst more
  have hsplit := Numeral.text_append_read (first :: more)
  have hne : (Numeral.read (first :: more)).1.text ≠ [] := by
    simp [Numeral.read, Numeral.text, hfirst]
  simp only [readNumeral] at h ⊢
  generalize Numeral.read (first :: more) = read at *
  obtain ⟨numeral, rest⟩ := read
  rw [← hsplit]
  split at h
  · cases h
  rename_i hkind
  cases h
  by_cases hfloat : numeral.isFloat
  · rw [if_pos hfloat]
    exact .float hne hfloat (Numeral.isCut_or_of_kind?_eq_none hkind hfloat) hlongest
  · rw [if_neg hfloat]
    obtain ⟨digits, rfl, hlarge⟩ := Numeral.exists_digits_of_kind?_eq_none hkind hfloat
    have htext : Numeral.text ⟨digits, none, none⟩ = digits := by
      simp [Numeral.text, Numeral.fractionText, Numeral.exponentText]
    rw [htext] at hne ⊢
    refine .integer hne (hwell rfl).whole hlarge (hlongest.mono fun c hc => ?_)
    rcases hc with hdigit | rfl | rfl | rfl
    · exact .inl hdigit
    · exact .inr ⟨rfl, .inr (.inr ⟨rfl, rfl⟩)⟩
    · exact .inr ⟨rfl, .inl rfl⟩
    · exact .inr ⟨rfl, .inr (.inl rfl)⟩

/-- A character in none of the classes that lexemes start with. -/
structure IsStray (c : Char) : Prop where
  symbol : Symbol.ofChar? c = none
  bang : c ≠ '!'
  quote : c ≠ '"'
  alpha : ¬c.isAlpha
  digit : ¬c.isDigit

namespace IsStray

variable {c : Char}

/-- A stray character is no part of a symbol of two characters. -/
theorem ofPair?_eq_none (h : IsStray c) (d : Char) : Symbol.ofPair? c d = none := by
  by_contra hpair
  rcases (Symbol.isSome_ofPair?_iff c d).mp (Option.isSome_iff_ne_none.mpr hpair) with
    ⟨rfl, -⟩ | ⟨rfl | rfl | rfl | rfl, -⟩
  · cases h.symbol
  · cases h.symbol
  · exact h.bang rfl
  · cases h.symbol
  · cases h.symbol

/-- A stray character is an unexpected one, and is left where it is. -/
theorem read_eq (h : IsStray c) (rest : List Char) :
    read c rest = ⟨[], c :: rest, .error (.unexpectedCharacter c, 0)⟩ := by
  rw [read, readPair?_eq_none fun d _ => h.ofPair?_eq_none d, h.symbol]
  dsimp only
  rw [if_neg h.bang, if_neg h.quote, if_neg h.alpha, if_neg h.digit]

/-- No lexeme starts with a stray character. -/
theorem head?_ne (h : IsStray c) {kind : TokenKind} {word : List Char}
    (hspells : Spells kind word) :
    word.head? ≠ some c := by
  have hlongest : LongestLexeme kind word [] := ⟨hspells, notBefore_nil _⟩
  obtain ⟨first, more, rfl, hread⟩ := read_of_longestLexeme hlongest
  rintro ⟨⟩
  rw [h.read_eq] at hread
  cases hread

end IsStray

/-- What is read as a pair of characters has a token. -/
theorem outcome_of_readPair? {text : List Char} {lexeme : Lexeme}
    (h : readPair? text = some lexeme) : ∃ kind, lexeme.outcome = .ok kind := by
  unfold readPair? at h
  split at h
  · obtain ⟨sign, -, rfl⟩ := Option.map_eq_some_iff.mp h
    exact ⟨.symbol sign, rfl⟩
  · cases h

/-- A lexeme that cannot be read is misspelt. -/
theorem misspelling_of_read {c : Char} {rest : List Char} {fault : LexFault} {distance : Nat}
    (h : (read c rest).outcome = .error (fault, distance)) :
    Misspelling (c :: rest) fault distance (read c rest).rest := by
  unfold read at h ⊢
  split at h
  · rename_i lexeme hpair
    obtain ⟨kind, hkind⟩ := outcome_of_readPair? hpair
    rw [hkind] at h
    cases h
  · rename_i hpair
    split at h
    · cases h
    · rename_i hsymbol
      split_ifs at h ⊢ with hbang hquote halpha hdigit
      · cases h
        obtain rfl := hbang
        refine .loneBang ?_
        rintro _ hnext rfl
        obtain ⟨more, rfl⟩ := List.head?_eq_some_iff.mp hnext
        cases hpair
      · obtain rfl := hquote
        exact misspelling_of_readString h
      · cases h
      · exact misspelling_of_readNumeral hdigit h
      · cases h
        exact .unexpectedCharacter fun _ _ =>
          IsStray.head?_ne ⟨hsymbol, hbang, hquote, halpha, hdigit⟩

end Lexeme

/-- A class that ends before the end of a text ends at the same place in a longer one. -/
theorem takeWhile_dropWhile_append {p : Char → Bool} {text : List Char}
    (h : text.dropWhile p ≠ []) (suffix : List Char) :
    (text ++ suffix).takeWhile p = text.takeWhile p ∧
      (text ++ suffix).dropWhile p = text.dropWhile p ++ suffix := by
  have hsplit : text ++ suffix = text.takeWhile p ++ (text.dropWhile p ++ suffix) := by
    rw [← List.append_assoc, List.takeWhile_append_dropWhile]
  have hstop := (notBefore_dropWhile p text).append h suffix
  rw [hsplit]
  exact ⟨takeWhile_append_of_notBefore (all_takeWhile p text) hstop,
    dropWhile_append_of_notBefore (all_takeWhile p text) hstop⟩

namespace Numeral

/-- A fraction with text behind it is read in the same way when more text follows. -/
theorem readFraction_append_suffix {text : List Char} (h : (readFraction text).2 ≠ [])
    (suffix : List Char) : readFraction (text ++ suffix) =
      ((readFraction text).1, (readFraction text).2 ++ suffix) := by
  cases text with
  | nil => exact absurd rfl h
  | cons c rest =>
    by_cases hpoint : c = '.'
    · obtain rfl := hpoint
      obtain ⟨htake, hdrop⟩ := takeWhile_dropWhile_append h suffix
      rw [List.cons_append, readFraction, htake, hdrop]
      rfl
    · have hstop : NotBefore (· = '.') (c :: rest) := notBefore_cons.mpr hpoint
      rw [readFraction_of_notBefore hstop,
        readFraction_of_notBefore (hstop.append (List.cons_ne_nil _ _) suffix)]

/-- An exponent with text behind it is read in the same way when more text follows. -/
theorem readExponent_append_suffix {text : List Char} (h : (readExponent text).2 ≠ [])
    (suffix : List Char) : readExponent (text ++ suffix) =
      ((readExponent text).1, (readExponent text).2 ++ suffix) := by
  cases text with
  | nil => exact absurd rfl h
  | cons mark rest =>
    by_cases hmark : mark = 'e' ∨ mark = 'E'
    · cases rest with
      | nil => simp [readExponent, Exponent.read?, hmark] at h
      | cons sign digits =>
        by_cases hsign : sign = '+' ∨ sign = '-'
        · have hread (digits : List Char) : readExponent (mark :: sign :: digits) =
              (some ⟨mark, some sign, digits.takeWhile Char.isDigit⟩,
                digits.dropWhile Char.isDigit) := by
            rw [readExponent, Exponent.read?, if_pos hmark, if_pos hsign]
          rw [hread] at h
          obtain ⟨htake, hdrop⟩ := takeWhile_dropWhile_append h suffix
          rw [List.cons_append, List.cons_append, hread, hread, htake, hdrop]
        · have hread (digits : List Char) : readExponent (mark :: sign :: digits) =
              (some ⟨mark, none, (sign :: digits).takeWhile Char.isDigit⟩,
                (sign :: digits).dropWhile Char.isDigit) := by
            rw [readExponent, Exponent.read?, if_pos hmark, if_neg hsign]
          rw [hread] at h
          obtain ⟨htake, hdrop⟩ := takeWhile_dropWhile_append h suffix
          rw [List.cons_append, List.cons_append, hread, hread, ← List.cons_append, htake, hdrop]
    · have hstop : NotBefore (fun c => c = 'e' ∨ c = 'E') (mark :: rest) :=
        notBefore_cons.mpr hmark
      rw [readExponent_of_notBefore hstop,
        readExponent_of_notBefore (hstop.append (List.cons_ne_nil _ _) suffix)]

/-- A numeral with text behind it is read in the same way when more text follows. -/
theorem read_append_suffix {text : List Char} (h : (read text).2 ≠ []) (suffix : List Char) :
    read (text ++ suffix) = ((read text).1, (read text).2 ++ suffix) := by
  have hfraction : (readFraction (text.dropWhile Char.isDigit)).2 ≠ [] := by
    intro hnil
    refine h ?_
    rw [read, hnil]
    rfl
  have hwhole : text.dropWhile Char.isDigit ≠ [] := by
    intro hnil
    refine hfraction ?_
    rw [hnil]
    rfl
  obtain ⟨htake, hdrop⟩ := takeWhile_dropWhile_append hwhole suffix
  rw [read, htake, hdrop, readFraction_append_suffix hfraction]
  dsimp only
  rw [readExponent_append_suffix h]
  rfl

end Numeral

/-- A run of hexadecimal digits that is full, or has text behind it, is read in the same way when
more text follows. -/
theorem readHexRun_append_suffix {count : Nat} {text : List Char}
    (h : (readHexRun count text).2.2 = true ∨ (readHexRun count text).2.1 ≠ [])
    (suffix : List Char) : readHexRun count (text ++ suffix) =
      ((readHexRun count text).1, (readHexRun count text).2.1 ++ suffix,
        (readHexRun count text).2.2) := by
  induction count, text using readHexRun.induct with
  | case1 => rfl
  | case2 => simp [readHexRun] at h
  | case3 more c rest hc digits rest' complete hr ih =>
    simp only [readHexRun, hc, if_true, List.cons_append] at h ⊢
    rw [ih h]
  | case4 more c rest hc => simp [readHexRun, hc]

/-- An escape that is well formed, or has text behind it, is read in the same way when more text
follows. -/
theorem readEscape_append_suffix {text : List Char}
    (h : (readEscape text).2.2 = true ∨ (readEscape text).2.1 ≠ []) (suffix : List Char) :
    readEscape (text ++ suffix) =
      ((readEscape text).1, (readEscape text).2.1 ++ suffix, (readEscape text).2.2) := by
  unfold readEscape at h
  split at h
  · simp at h
  · rw [List.cons_append, readEscape, readHexRun_append_suffix h]
    rfl
  · rename_i c rest hu
    rw [List.cons_append]
    unfold readEscape
    split
    · contradiction
    · rename_i heq
      cases heq
      exact absurd rfl hu
    · rename_i heq
      cases heq
      rfl

namespace Body

/-- The body of a string with text behind it is read in the same way when more text follows. -/
theorem read_append_suffix {text : List Char} (h : (read text).rest ≠ []) (suffix : List Char) :
    read (text ++ suffix) = { read text with rest := (read text).rest ++ suffix } := by
  fun_induction read text with
  | case1 => exact absurd rfl h
  | case2 rest => rw [List.cons_append, read]
  | case3 => exact absurd rfl h
  | case4 rest escape hempty hescape _ ih =>
    have hne : rest ++ suffix ≠ [] := List.append_ne_nil_of_left_ne_nil (by simpa using hempty) _
    have hread := readEscape_append_suffix (.inl hescape) suffix
    rw [hescape] at hread
    rw [List.cons_append, read_backslash hne hread, ih h]
    rfl
  | case5 rest escape hempty hescape =>
    have hne : rest ++ suffix ≠ [] := List.append_ne_nil_of_left_ne_nil (by simpa using hempty) _
    have hempty : (rest ++ suffix).isEmpty = false := List.isEmpty_eq_false_iff.mpr hne
    have hread := readEscape_append_suffix (.inr h) suffix
    rw [List.cons_append, read]
    simp only [hread, hempty, Bool.false_eq_true, if_false]
    rw [if_neg hescape]
  | case6 c rest hquote hbackslash ih =>
    rw [List.cons_append, read, ih h]
    · rfl
    · exact hquote
    · exact hbackslash

end Body

namespace Lexeme

/-- As long as some text is left behind a lexeme, more text at the end makes no difference. -/
theorem read_append_suffix {c : Char} {rest : List Char} (h : (read c rest).rest ≠ [])
    (suffix : List Char) :
    read c (rest ++ suffix) = { read c rest with rest := (read c rest).rest ++ suffix } := by
  by_cases hplain : c.isAlphanum ∨ c = '"'
  · rw [read_of_not_symbol hplain] at h ⊢
    rw [read_of_not_symbol hplain]
    split_ifs at h ⊢ with hquote halpha hdigit
    · simp only [readString, Body.read_append_suffix h]
    · obtain ⟨htake, hdrop⟩ := takeWhile_dropWhile_append h suffix
      simp only [readWord, ← List.cons_append, htake, hdrop]
    · simp only [readNumeral, ← List.cons_append, Numeral.read_append_suffix h]
    · rfl
  by_cases hstray : IsStray c
  · rw [hstray.read_eq, hstray.read_eq]
    rfl
  -- What is left are the symbols and the bang, which are told by the next character.
  obtain ⟨halphanum, hquote⟩ := not_or.mp hplain
  have hclass : c.isAlpha = false ∧ c.isDigit = false := by
    simpa [Char.isAlphanum] using halphanum
  cases rest with
  | nil =>
    have hpair : readPair? [c] = none := rfl
    rw [read, hpair] at h
    cases hsymbol : Symbol.ofChar? c with
    | some sign =>
      rw [hsymbol] at h
      exact absurd rfl h
    | none =>
      rw [hsymbol] at h
      by_cases hbang : c = '!'
      · simp [hbang] at h
      · exact absurd ⟨hsymbol, hbang, hquote, by simp [hclass], by simp [hclass]⟩ hstray
  | cons d more =>
    rw [List.cons_append]
    simp only [read, readPair?, hquote, hclass, Bool.false_eq_true, if_false]
    cases Symbol.ofPair? c d with
    | some sign => rfl
    | none =>
      cases Symbol.ofChar? c with
      | some sign => rfl
      | none =>
        dsimp only [Option.map_none]
        split_ifs <;> rfl

end Lexeme

end JsonTemplate
