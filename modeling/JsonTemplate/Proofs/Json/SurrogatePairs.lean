import JsonTemplate.Proofs.Json.Parsing

/-!
# Surrogate pairs

In JSON a character above U+FFFF has no numbered escape of its own: it is written as the two
halves of its surrogate pair, one escape directly after the other. `StandsFor` gives the meaning of
all strings whose halves are paired in this way.

A string literal is scanned whatever escapes stand in it, and decoding takes one escape at a time.
A half alone has no character, so both halves of a pair become U+FFFD. A string is decoded to what
it stands for exactly if it has no pairs.
-/

namespace JsonTemplate

namespace StringUnit

/-- An escape with the given one of the 1024 numbers that follow the first of a kind of halves. -/
def IsHalf (first index : Nat) : StringUnit → Prop
  | numbered a b c d => number a b c d = first + index ∧ index < 0x400
  | _ => False

/-- The character of a pair: the first half has the upper ten bits above U+FFFF, and the second
half the lower ten. -/
def pairChar (upper lower : Nat) : Char := .ofNat (0x10000 + 0x400 * upper + lower)

/-- What an escape, a letter or a sign is decoded to where it stands alone. -/
def decoded : StringUnit → Char
  | numbered a b c d =>
    if 0xD800 ≤ number a b c d ∧ number a b c d ≤ 0xDFFF then '\ufffd' else .ofNat (number a b c d)
  | unit => unit.value

end StringUnit

/-- What the units of a string stand for, if each half of a surrogate pair has its other half
beside it. -/
inductive StandsFor : List StringUnit → List Char → Prop
  | nil : StandsFor [] []
  | single {unit : StringUnit} {units : List StringUnit} {text : List Char} :
      unit.Supported → StandsFor units text → StandsFor (unit :: units) (unit.value :: text)
  | pair {high low : StringUnit} {upper lower : Nat} {units : List StringUnit}
      {text : List Char} :
      high.IsHalf 0xD800 upper → low.IsHalf 0xDC00 lower →
      StandsFor units text →
      StandsFor (high :: low :: units) (StringUnit.pairChar upper lower :: text)

namespace StringUnit

/-- A unit that stands for a character is decoded to it. -/
theorem decoded_of_supported {unit : StringUnit} (h : unit.Supported) :
    unit.decoded = unit.value := by
  cases unit with
  | numbered a b c d => exact if_neg h
  | _ => rfl

/-- A unit that stands for no character is decoded to the replacement character. -/
theorem decoded_of_not_supported {unit : StringUnit} (h : ¬unit.Supported) :
    unit.decoded = '\ufffd' := by
  cases unit with
  | numbered a b c d => exact if_pos (Decidable.not_not.mp h)
  | _ => exact absurd trivial h

/-- A half of a pair has ten bits of its own. -/
theorem index_lt_of_isHalf {unit : StringUnit} {first index : Nat}
    (h : unit.IsHalf first index) : index < 0x400 := by
  cases unit with
  | numbered a b c d => exact h.2
  | _ => exact h.elim

/-- A half of a pair stands for no character. -/
theorem not_supported_of_isHalf {unit : StringUnit} {first index : Nat}
    (hfirst : first = 0xD800 ∨ first = 0xDC00) (h : unit.IsHalf first index) :
    ¬unit.Supported := by
  cases unit with
  | numbered a b c d =>
    obtain ⟨hnumber, hindex⟩ := h
    rw [Supported, hnumber]
    omega
  | _ => exact h.elim

/-- The character of a pair lies above U+FFFF. -/
theorem pairChar_ne {high low : StringUnit} {upper lower : Nat} (hhigh : high.IsHalf 0xD800 upper)
    (hlow : low.IsHalf 0xDC00 lower) : pairChar upper lower ≠ '\ufffd' := by
  have hupper := index_lt_of_isHalf hhigh
  have hlower := index_lt_of_isHalf hlow
  have hvalid : (0x10000 + 0x400 * upper + lower).isValidChar := by
    unfold Nat.isValidChar
    omega
  intro heq
  rw [pairChar, Char.ofNat, dif_pos hvalid] at heq
  have hnumber : 0x10000 + 0x400 * upper + lower = 0xFFFD := congrArg Char.toNat heq
  omega

/-- An escape of half a surrogate pair is decoded to U+FFFD, whatever follows it. -/
theorem decode_half_append {first second third fourth : Nibble}
    (h : ¬(numbered first second third fourth).Supported) (rest : List Char) :
    decode ((numbered first second third fourth).text ++ rest) = '\ufffd' :: decode rest := by
  have hinvalid : ¬(number first second third fourth).isValidChar := by
    simp only [Supported, Decidable.not_not] at h
    unfold Nat.isValidChar
    omega
  change decode ('\\' :: 'u' :: first.char :: second.char :: third.char :: fourth.char :: rest) =
    _ :: decode rest
  rw [decode, decodeEscape]
  simp only [List.take_succ_cons, List.take_zero, List.drop_succ_cons, List.drop_zero,
    List.cons_append, List.nil_append, numberedChar, readHex?_nibbles, if_neg hinvalid]

/-- Decoding takes one unit after the other, halves of surrogate pairs included. -/
theorem decode_unit_append (unit : StringUnit) (rest : List Char) :
    decode (unit.text ++ rest) = unit.decoded :: decode rest := by
  by_cases h : unit.Supported
  · rw [decode_text_append h, decoded_of_supported h]
  · rw [decoded_of_not_supported h]
    cases unit with
    | numbered a b c d => exact decode_half_append h rest
    | _ => exact absurd trivial h

end StringUnit

/-- A string is decoded unit by unit. -/
theorem decodeString_units (units : List StringUnit) :
    decodeString (.ofList (unitsText units)) = .ofList (units.map (·.decoded)) := by
  rw [decodeString, String.toList_ofList]
  congr 1
  induction units with
  | nil => rw [unitsText, List.flatMap_nil, decode, List.map_nil]
  | cons unit units ih =>
    rw [unitsText, List.flatMap_cons, StringUnit.decode_unit_append, List.map_cons, ← unitsText,
      ih]

/-- Units taken one by one are what the string stands for exactly if none of them is half of a
pair. -/
theorem StandsFor.map_decoded_eq_iff {units : List StringUnit} {text : List Char}
    (h : StandsFor units text) :
    units.map (·.decoded) = text ↔ ∀ unit ∈ units, unit.Supported := by
  induction h with
  | nil => exact iff_of_true rfl nofun
  | single hunit _ ih =>
    rw [List.map_cons, StringUnit.decoded_of_supported hunit, List.cons_inj_right, ih,
      List.forall_mem_cons, and_iff_right hunit]
  | pair hhigh hlow _ _ =>
    have hlone := StringUnit.not_supported_of_isHalf (Or.inl rfl) hhigh
    refine iff_of_false (fun heq => ?_) fun hall => hlone (hall _ List.mem_cons_self)
    rw [List.map_cons, StringUnit.decoded_of_not_supported hlone] at heq
    exact StringUnit.pairChar_ne hhigh hlow (List.cons.inj heq).1.symm

/-- Every string of JSON is scanned as one token, wherever it stands. Its text is decoded unit by
unit: letters and signs to themselves, simple escapes to what they stand for, numbered escapes to
their characters, and each half of a surrogate pair to U+FFFD. So a string with its halves in pairs
is decoded to what it stands for exactly if there are no pairs in it. -/
theorem string_decoded_by_units (units : List StringUnit) :
    (∀ (rest : List Char) (offset : Nat) (finished : Bool),
      Scanner.nextToken ⟨quoted units ++ rest, offset, finished⟩ =
        (.ok ⟨.string (.ofList (unitsText units)),
            ⟨offset, offset + byteLength (quoted units)⟩⟩,
          ⟨rest, offset + byteLength (quoted units), finished⟩)) ∧
    decodeString (.ofList (unitsText units)) = .ofList (units.map (·.decoded)) ∧
    ∀ text, StandsFor units text →
      (decodeString (.ofList (unitsText units)) = .ofList text ↔
        ∀ unit ∈ units, unit.Supported) := by
  refine ⟨fun rest offset finished => ?_, decodeString_units units, fun text htext => ?_⟩
  · have hlongest : LongestLexeme (.string (.ofList (unitsText units))) (quoted units) rest :=
      ⟨.string (stringBody_unitsText units), fun _ _ => id⟩
    have hscan : Scanner.nextToken ⟨[] ++ quoted units ++ rest, offset, finished⟩ = _ :=
      Scanner.nextToken_of_longestLexeme nofun hlongest rfl rfl
    exact hscan
  · rw [decodeString_units, String.ofList_inj]
    exact htext.map_decoded_eq_iff

/-- The first and the second half of U+1F600. -/
def faceHigh : StringUnit := .numbered ⟨13, false⟩ ⟨8, false⟩ ⟨3, false⟩ ⟨13, false⟩

/-- The second half of the pair for a face. -/
def faceLow : StringUnit := .numbered ⟨13, false⟩ ⟨14, false⟩ ⟨0, false⟩ ⟨0, false⟩

/-- The first half of the pair for a face. -/
theorem isHalf_faceHigh : faceHigh.IsHalf 0xD800 0x3D := ⟨rfl, by decide⟩

/-- The pair for a face stands for it. -/
theorem standsFor_face : StandsFor [faceHigh, faceLow] ['😀'] :=
  .pair isHalf_faceHigh (show faceLow.IsHalf 0xDC00 0x200 from ⟨rfl, by decide⟩) .nil

/-- A letter alone is decoded to what it stands for, and a letter before a pair is not. -/
theorem decoded_letter_face :
    StandsFor [.plain 'a' (by decide)] ['a'] ∧
      decodeString (.ofList (unitsText [.plain 'a' (by decide)])) = .ofList ['a'] ∧
      StandsFor [.plain 'a' (by decide), faceHigh, faceLow] ['a', '😀'] ∧
      decodeString (.ofList (unitsText [.plain 'a' (by decide), faceHigh, faceLow])) ≠
        .ofList ['a', '😀'] := by
  have hletter : StandsFor [.plain 'a' (by decide)] ['a'] := .single trivial .nil
  have hface : StandsFor [.plain 'a' (by decide), faceHigh, faceLow] ['a', '😀'] :=
    .single trivial standsFor_face
  refine ⟨hletter, ?_, hface, fun hdecoded => ?_⟩
  · exact ((string_decoded_by_units _).2.2 _ hletter).mpr (List.forall_mem_singleton.mpr trivial)
  · have hall := ((string_decoded_by_units _).2.2 _ hface).mp hdecoded
    exact StringUnit.not_supported_of_isHalf (Or.inl rfl) isHalf_faceHigh (hall _ (by simp))

/-- A pair is not decoded to the character that it stands for, but to U+FFFD twice. -/
theorem decodeString_face :
    StandsFor [faceHigh, faceLow] ['😀'] ∧
      quoted [faceHigh, faceLow] = "\"\\ud83d\\ude00\"".toList ∧
      decodeString (.ofList (unitsText [faceHigh, faceLow])) = "\ufffd\ufffd" ∧
      decodeString (.ofList (unitsText [faceHigh, faceLow])) ≠ .ofList ['😀'] := by
  have hdecoded : decodeString (.ofList (unitsText [faceHigh, faceLow])) = "\ufffd\ufffd" :=
    decodeString_units [faceHigh, faceLow]
  refine ⟨standsFor_face, by decide, hdecoded, ?_⟩
  rw [hdecoded]
  decide

end JsonTemplate
