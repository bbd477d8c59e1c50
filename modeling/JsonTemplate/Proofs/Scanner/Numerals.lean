import JsonTemplate.Proofs.Scanner.TokenGrammar

/-!
# The numerals that are read

Reading a numeral takes a well-formed one from the front of a text whenever nothing that
follows would continue it, and whatever is read with digits in its exponent is well formed
and is not continued by what follows. So the reader and the grammar of numerals agree on every
text, also on the place where a numeral ends.
-/

namespace JsonTemplate

/-- A digit is none of the signs and letters of a numeral. -/
theorem ne_of_isDigit {c other : Char} (hc : c.isDigit) (hother : ¬other.isDigit) :
    c ≠ other := by
  rintro rfl
  exact hother hc

/-- No digit is a blank. -/
theorem not_isSpace_of_isDigit {c : Char} (h : c.isDigit) : ¬isSpace c := by
  simp only [isSpace, Bool.or_eq_true, beq_iff_eq, not_or]
  exact ⟨⟨⟨ne_of_isDigit h (by decide), ne_of_isDigit h (by decide)⟩,
    ne_of_isDigit h (by decide)⟩, ne_of_isDigit h (by decide)⟩

namespace Exponent

/-- A text that starts no exponent does not start with an exponent's letter. -/
theorem notBefore_of_read?_eq_none {text : List Char} (h : read? text = none) :
    NotBefore (fun c => c = 'e' ∨ c = 'E') text := by
  intro c hc hmark
  cases text with
  | nil => cases hc
  | cons mark rest =>
    cases hc
    simp only [read?.eq_def, if_pos hmark] at h
    split at h
    · cases h
    · split at h <;> cases h

/-- A well-formed exponent is read when no further digit follows. -/
theorem read?_text_append {exponent : Exponent} {rest : List Char} (h : exponent.WellFormed)
    (hrest : NotBefore (Char.isDigit ·) rest) :
    read? (exponent.text ++ rest) = some (exponent, rest) := by
  obtain ⟨mark, sign, digits⟩ := exponent
  have htake := takeWhile_append_of_notBefore h.digits hrest
  have hdrop := dropWhile_append_of_notBefore h.digits hrest
  cases sign with
  | some sign =>
    simp only [text, Option.toList_some, List.cons_append, List.nil_append, read?,
      if_pos h.mark, if_pos (h.sign sign rfl), htake, hdrop]
  | none =>
    obtain ⟨first, more, rfl⟩ := List.exists_cons_of_ne_nil h.digits_ne_nil
    have hfirst : first.isDigit := h.digits first List.mem_cons_self
    have hsign : ¬(first = '+' ∨ first = '-') :=
      not_or.mpr ⟨ne_of_isDigit hfirst (by decide), ne_of_isDigit hfirst (by decide)⟩
    simp only [List.cons_append] at htake hdrop
    simp only [text, Option.toList_none, List.cons_append, List.nil_append, read?,
      if_pos h.mark, if_neg hsign, htake, hdrop]

/-- What is read as an exponent is well formed if it has digits, and no further digit
follows it. -/
theorem wellFormed_of_read? {text rest : List Char} {exponent : Exponent}
    (h : read? text = some (exponent, rest)) :
    (exponent.digits ≠ [] → exponent.WellFormed) ∧ NotBefore (Char.isDigit ·) rest := by
  unfold read? at h
  split at h
  · cases h
  · split at h
    · rename_i hmark
      split at h
      · cases h
        exact ⟨fun hne => absurd rfl hne, fun c hc => nomatch hc⟩
      · split at h
        · rename_i hsign
          cases h
          refine ⟨fun hne => ⟨hmark, ?_, all_takeWhile _ _, hne⟩, notBefore_dropWhile _ _⟩
          rintro sign ⟨⟩
          exact hsign
        · cases h
          exact ⟨fun hne => ⟨hmark, (fun _ h => nomatch h), all_takeWhile _ _, hne⟩,
            notBefore_dropWhile _ _⟩
    · cases h

end Exponent

namespace Numeral

/-- Whether a character would continue a numeral. A point continues only an integer, and an
exponent's letter only a numeral without an exponent. -/
def ContinuedBy (numeral : Numeral) (next : Char) : Prop :=
  next.isDigit ∨
    numeral.exponent = none ∧ (next = 'e' ∨ next = 'E' ∨ numeral.fraction = none ∧ next = '.')

/-- Without a letter for it at the front, there is no exponent. -/
theorem readExponent_of_notBefore {text : List Char}
    (h : NotBefore (fun c => c = 'e' ∨ c = 'E') text) : readExponent text = (none, text) := by
  have hread : Exponent.read? text = none := by
    cases text with
    | nil => rfl
    | cons c rest => simp only [Exponent.read?.eq_def, if_neg (h c rfl)]
  rw [readExponent, hread]

/-- Without a dot at the front, there is no fraction. -/
theorem readFraction_of_notBefore {text : List Char} (h : NotBefore (· = '.') text) :
    readFraction text = (none, text) := by
  unfold readFraction
  split
  · exact absurd rfl (h '.' rfl)
  · rfl

/-- The exponent of a numeral is read back. -/
theorem readExponent_append {numeral : Numeral} {rest : List Char} (h : numeral.WellFormed)
    (hrest : NotBefore numeral.ContinuedBy rest) :
    readExponent (exponentText numeral.exponent ++ rest) = (numeral.exponent, rest) := by
  cases hexponent : numeral.exponent with
  | none =>
    refine readExponent_of_notBefore (hrest.mono fun c hc => ?_)
    rcases hc with rfl | rfl <;> simp [ContinuedBy, hexponent]
  | some exponent =>
    have hread := Exponent.read?_text_append (h.exponent exponent hexponent)
      (hrest.mono fun c hc => Or.inl hc)
    rw [readExponent, exponentText, hread]

/-- The letter of an exponent, or what follows a numeral without one, is no digit. -/
theorem notBefore_exponentText {numeral : Numeral} {rest : List Char} (h : numeral.WellFormed)
    (hrest : NotBefore numeral.ContinuedBy rest) {p : Char → Prop}
    (hmark : ¬p 'e' ∧ ¬p 'E') (hp : numeral.exponent = none → ∀ c, p c → numeral.ContinuedBy c) :
    NotBefore p (exponentText numeral.exponent ++ rest) := by
  cases hexponent : numeral.exponent with
  | none => exact hrest.mono (hp hexponent)
  | some exponent =>
    intro c hc
    obtain rfl : exponent.mark = c := by simpa [exponentText, Exponent.text] using hc
    rcases (h.exponent exponent hexponent).mark with hm | hm <;> rw [hm]
    · exact hmark.1
    · exact hmark.2

/-- The fraction of a numeral is read back. -/
theorem readFraction_append {numeral : Numeral} {rest : List Char} (h : numeral.WellFormed)
    (hrest : NotBefore numeral.ContinuedBy rest) :
    readFraction (fractionText numeral.fraction ++ (exponentText numeral.exponent ++ rest)) =
      (numeral.fraction, exponentText numeral.exponent ++ rest) := by
  have hdigit : NotBefore (Char.isDigit ·) (exponentText numeral.exponent ++ rest) :=
    notBefore_exponentText h hrest (by decide) fun _ _ hc => Or.inl hc
  cases hfraction : numeral.fraction with
  | none =>
    refine readFraction_of_notBefore (notBefore_exponentText h hrest (by decide) ?_)
    rintro hexponent c rfl
    exact Or.inr ⟨hexponent, Or.inr (Or.inr ⟨hfraction, rfl⟩)⟩
  | some digits =>
    have hdigits := h.fraction digits hfraction
    rw [fractionText, List.cons_append, readFraction,
      takeWhile_append_of_notBefore hdigits hdigit, dropWhile_append_of_notBefore hdigits hdigit]

/-- A well-formed numeral is read back from any text that does not continue it. -/
theorem read_text_append {numeral : Numeral} {rest : List Char} (h : numeral.WellFormed)
    (hrest : NotBefore numeral.ContinuedBy rest) :
    read (numeral.text ++ rest) = (numeral, rest) := by
  have hafter : NotBefore (Char.isDigit ·)
      (fractionText numeral.fraction ++ (exponentText numeral.exponent ++ rest)) := by
    cases hfraction : numeral.fraction with
    | none => exact notBefore_exponentText h hrest (by decide) fun _ _ hc => Or.inl hc
    | some digits =>
      intro c hc
      obtain rfl : '.' = c := by simpa [fractionText] using hc
      decide
  have htext : numeral.text ++ rest = numeral.whole ++
      (fractionText numeral.fraction ++ (exponentText numeral.exponent ++ rest)) := by
    simp only [Numeral.text, List.append_assoc]
  rw [read, htext, takeWhile_append_of_notBefore h.whole hafter,
    dropWhile_append_of_notBefore h.whole hafter, readFraction_append h hrest]
  simp only [readExponent_append h hrest]

/-- No digit follows the digits of a fraction, and no point or digit follows the whole
part of a numeral without one. -/
theorem readFraction_spec (text : List Char) (hstart : NotBefore (Char.isDigit ·) text) :
    (∀ digits ∈ (readFraction text).1, AllDigits digits) ∧
      NotBefore (Char.isDigit ·) (readFraction text).2 ∧
      ((readFraction text).1 = none → NotBefore (· = '.') (readFraction text).2) := by
  unfold readFraction
  split
  · refine ⟨?_, notBefore_dropWhile _ _, fun h => nomatch h⟩
    rintro digits ⟨⟩
    exact all_takeWhile _ _
  · rename_i hpoint
    refine ⟨(fun _ h => nomatch h), hstart, fun _ c hc => ?_⟩
    rintro rfl
    cases text with
    | nil => cases hc
    | cons c rest =>
      cases hc
      exact hpoint rest rfl

/-- What is read as an exponent, and what follows it. -/
theorem readExponent_spec (text : List Char) (hstart : NotBefore (Char.isDigit ·) text) :
    (∀ exponent ∈ (readExponent text).1, exponent.digits ≠ [] → exponent.WellFormed) ∧
      NotBefore (Char.isDigit ·) (readExponent text).2 ∧
      ((readExponent text).1 = none →
        (readExponent text).2 = text ∧ NotBefore (fun c => c = 'e' ∨ c = 'E') text) := by
  unfold readExponent
  split
  · rename_i exponent rest hread
    obtain ⟨hwell, hrest⟩ := Exponent.wellFormed_of_read? hread
    refine ⟨?_, hrest, fun h => nomatch h⟩
    rintro _ ⟨⟩
    exact hwell
  · rename_i hread
    refine ⟨(fun _ h => nomatch h), hstart, fun _ => ⟨rfl, ?_⟩⟩
    exact Exponent.notBefore_of_read?_eq_none hread

/-- What is read from a text that starts with a digit is well formed unless its exponent has
no digits, and what follows does not continue it. -/
theorem wellFormed_read {first : Char} (hfirst : first.isDigit) (more : List Char) :
    ((read (first :: more)).1.isCut = false → (read (first :: more)).1.WellFormed) ∧
      NotBefore (read (first :: more)).1.ContinuedBy (read (first :: more)).2 := by
  have hwhole := notBefore_dropWhile Char.isDigit (first :: more)
  obtain ⟨hfraction, hdigit, hpoint⟩ := readFraction_spec _ hwhole
  obtain ⟨hexponent, hend, hnone⟩ := readExponent_spec _ hdigit
  constructor
  · intro hcut
    refine ⟨all_takeWhile _ _, ?_, hfraction, fun exponent he => hexponent exponent he ?_⟩
    · simp [read, hfirst]
    · intro hnil
      have he : (read (first :: more)).1.exponent = some exponent := he
      simp [isCut, he, hnil] at hcut
  · rintro c hc (hd | ⟨he, hmark⟩)
    · exact hend c hc hd
    · obtain ⟨hsame, hletter⟩ := hnone he
      rw [read, hsame] at hc
      rcases hmark with rfl | rfl | ⟨hf, rfl⟩
      · exact hletter _ hc (Or.inl rfl)
      · exact hletter _ hc (Or.inr rfl)
      · exact hpoint hf _ hc rfl

end Numeral

end JsonTemplate
