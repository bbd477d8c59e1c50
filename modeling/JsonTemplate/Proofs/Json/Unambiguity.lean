import JsonTemplate.Proofs.Json.Parsing
import JsonTemplate.Proofs.Json.TokenTexts

/-!
# JSON texts have one meaning

Two spellings with the same text have the same tokens and stand for the same value. The case of
a hexadecimal digit is the only choice of a writer that the text does not show, and it makes no
difference.

The first character of a value tells what kind of value it is, and the character after it ends
it: a string ends at its quote, and neither a blank nor a sign continues a number. So two
spellings of one text are compared part by part, from the left.
-/

namespace JsonTemplate

/-- Whether a character is a blank between signs. -/
def IsGap (c : Char) : Prop := c ∈ [' ', '\t', '\n', '\r']

/-- Whether a character is whitespace of JSON is decided on the list of them. -/
instance : DecidablePred IsGap := fun c => inferInstanceAs (Decidable (c ∈ [' ', '\t', '\n', '\r']))

/-- The blanks in front of anything else are told by the text. -/
theorem Whitespace.text_append_inj {first second : Whitespace} {rest other : List Char}
    (h : first.text ++ rest = second.text ++ other) (hrest : NotBefore IsGap rest)
    (hother : NotBefore IsGap other) : rest = other := by
  have hdrop (gap : Whitespace) {rest : List Char} (hrest : NotBefore IsGap rest) :
      (gap.text ++ rest).dropWhile (decide <| IsGap ·) = rest :=
    dropWhile_append_of_notBefore (fun c hc => decide_eq_true (gap.all_blank c hc))
      (hrest.mono fun c hc => of_decide_eq_true hc)
  rw [← hdrop first hrest, h, hdrop second hother]

namespace Nibble

/-- The digit of four bits tells the bits, if not its case. -/
theorem value_eq_of_char_eq {first second : Nibble} (h : first.char = second.char) :
    first.value = second.value := by
  have hvalue := hexValue?_char first
  rw [h, hexValue?_char second] at hvalue
  exact Fin.ext (Option.some.inj hvalue).symm

end Nibble

namespace StringUnit

/-- Units that are written alike, with their meaning. -/
structure Alike (first second : StringUnit) : Prop where
  text_eq : first.text = second.text
  value_eq : first.value = second.value
  supported_iff : first.Supported ↔ second.Supported

/-- Two units in front of two texts that are equal are alike, and so are the texts behind them
equal. -/
theorem text_append_inj {first second : StringUnit} {rest other : List Char}
    (h : first.text ++ rest = second.text ++ other) : first.Alike second ∧ rest = other := by
  cases first with
  | plain c unescaped =>
    cases second with
    | plain d _ =>
      obtain ⟨rfl, rfl⟩ := List.cons.inj h
      exact ⟨⟨rfl, rfl, Iff.rfl⟩, rfl⟩
    | _ => exact absurd (List.cons.inj h).1 unescaped.2.2
  | escaped letter decoded escape =>
    cases second with
    | plain d unescaped => exact absurd (List.cons.inj h).1.symm unescaped.2.2
    | escaped other _ escape' =>
      obtain ⟨rfl, rfl⟩ : letter = other ∧ _ := by simpa [text] using h
      have hdecoded := (simpleEscape?_of_mem escape).1
      rw [(simpleEscape?_of_mem escape').1] at hdecoded
      obtain rfl := Option.some.inj hdecoded
      exact ⟨⟨rfl, rfl, Iff.rfl⟩, rfl⟩
    | numbered =>
      have hletter : letter = 'u' := by simpa [text] using (List.cons.inj (List.cons.inj h).2).1
      exact absurd hletter (simpleEscape?_of_mem escape).2
  | numbered a b c d =>
    cases second with
    | plain _ unescaped => exact absurd (List.cons.inj h).1.symm unescaped.2.2
    | escaped letter _ escape =>
      have hletter : 'u' = letter := (List.cons.inj (List.cons.inj h).2).1
      exact absurd hletter.symm (simpleEscape?_of_mem escape).2
    | numbered a' b' c' d' =>
      obtain ⟨ha, hb, hc, hd, rfl⟩ :
          a.char = a'.char ∧ b.char = b'.char ∧ c.char = c'.char ∧ d.char = d'.char ∧
            rest = other := by simpa [text] using h
      have hnumber : number a b c d = number a' b' c' d' := by
        simp only [number, Nibble.value_eq_of_char_eq ha, Nibble.value_eq_of_char_eq hb,
          Nibble.value_eq_of_char_eq hc, Nibble.value_eq_of_char_eq hd]
      refine ⟨⟨?_, ?_, ?_⟩, rfl⟩
      · simp only [text, ha, hb, hc, hd]
      · simp only [value, hnumber]
      · simp only [Supported, hnumber]

/-- No unit starts with a quote. -/
theorem head?_text_ne (unit : StringUnit) (rest : List Char) :
    (unit.text ++ rest).head? ≠ some '"' := by
  cases unit with
  | plain c unescaped => exact fun h => unescaped.2.1 (Option.some.inj h)
  | escaped | numbered => exact fun h => absurd (Option.some.inj h) (by decide)

end StringUnit

/-- Strings that are written alike, with their meaning. -/
structure UnitsAlike (first second : List StringUnit) : Prop where
  quoted_eq : quoted first = quoted second
  value_eq : unitsValue first = unitsValue second
  supported_iff : (∀ unit ∈ first, unit.Supported) ↔ ∀ unit ∈ second, unit.Supported

/-- Units that are alike one by one are alike together. -/
theorem UnitsAlike.cons {first second : StringUnit} {units others : List StringUnit}
    (h : first.Alike second) (hunits : UnitsAlike units others) :
    UnitsAlike (first :: units) (second :: others) where
  quoted_eq := by
    have htext := List.append_cancel_right (List.cons.inj hunits.quoted_eq).2
    rw [quoted, quoted, unitsText, unitsText, List.flatMap_cons, List.flatMap_cons, ← unitsText,
      ← unitsText, h.text_eq, htext]
  value_eq := by
    have hvalue := String.ofList_injective hunits.value_eq
    rw [unitsValue, unitsValue, List.map_cons, List.map_cons, h.value_eq, hvalue]
  supported_iff := by
    rw [List.forall_mem_cons, List.forall_mem_cons, h.supported_iff, hunits.supported_iff]

/-- A string ends at its quote. -/
theorem quoted_append_inj {first second : List StringUnit} {rest other : List Char}
    (h : quoted first ++ rest = quoted second ++ other) :
    UnitsAlike first second ∧ rest = other := by
  have htext : unitsText first ++ '"' :: rest = unitsText second ++ '"' :: other := by
    simpa [quoted] using h
  clear h
  induction first generalizing second with
  | nil =>
    cases second with
    | nil => exact ⟨⟨rfl, rfl, Iff.rfl⟩, (List.cons.inj htext).2⟩
    | cons unit units =>
      rw [unitsText, unitsText, List.flatMap_cons, List.append_assoc] at htext
      exact absurd (congrArg List.head? htext).symm (unit.head?_text_ne _)
  | cons unit units ih =>
    cases second with
    | nil =>
      rw [unitsText, unitsText, List.flatMap_cons, List.append_assoc] at htext
      exact absurd (congrArg List.head? htext) (unit.head?_text_ne _)
    | cons unit' units' =>
      rw [unitsText, unitsText, List.flatMap_cons, List.flatMap_cons, List.append_assoc,
        List.append_assoc] at htext
      obtain ⟨hunit, hrest⟩ := StringUnit.text_append_inj htext
      obtain ⟨hunits, rfl⟩ := ih hrest
      exact ⟨hunits.cons hunit, rfl⟩

/-- What continues a numeral continues a spelling. -/
theorem Numeral.extends_of_continuedBy {numeral : Numeral} {c : Char}
    (h : numeral.ContinuedBy c) : Extends c := by
  rcases h with hdigit | ⟨-, rfl | rfl | ⟨-, rfl⟩⟩
  · exact Or.inl (isWordChar_of_isDigit hdigit)
  · exact Or.inl rfl
  · exact Or.inl rfl
  · exact Or.inr rfl

namespace NumberSpelling

/-- A spelling of a number is its sign and its numeral. -/
theorem eq_of_numeral_eq {first second : NumberSpelling}
    (hnegative : first.negative = second.negative) (hnumeral : first.numeral = second.numeral) :
    first = second := by
  cases first
  cases second
  cases hnegative
  cases hnumeral
  rfl

/-- A number ends before what does not continue it, and only a minus sign is no digit in front
of it. -/
theorem text_append_inj {first second : NumberSpelling} {rest other : List Char}
    (h : first.text ++ rest = second.text ++ other) (hrest : NotBefore Extends rest)
    (hother : NotBefore Extends other) : first = second ∧ rest = other := by
  have hminus (number : NumberSpelling) (rest : List Char) :
      (number.numeral.text ++ rest).head? ≠ some '-' := by
    obtain ⟨digit, more, htext, hdigit⟩ := Numeral.exists_text_eq_cons number.wellFormed
    rw [htext]
    exact fun hhead => ne_of_isDigit hdigit (by decide) (Option.some.inj hhead)
  have hread (number : NumberSpelling) {rest : List Char} (hrest : NotBefore Extends rest) :
      Numeral.read (number.numeral.text ++ rest) = (number.numeral, rest) :=
    Numeral.read_text_append number.wellFormed
      (hrest.mono fun c => Numeral.extends_of_continuedBy)
  have hnumerals (hsame : first.numeral.text ++ rest = second.numeral.text ++ other) :
      first.numeral = second.numeral ∧ rest = other := by
    have hboth := hread first hrest
    rw [hsame, hread second hother] at hboth
    exact ⟨(Prod.mk.inj hboth).1.symm, (Prod.mk.inj hboth).2.symm⟩
  cases hfirst : first.negative <;> cases hsecond : second.negative <;>
    simp only [text, hfirst, hsecond, if_true, Bool.false_eq_true, if_false, List.nil_append,
      List.cons_append] at h
  · obtain ⟨hnumeral, hrest⟩ := hnumerals h
    exact ⟨eq_of_numeral_eq (hfirst.trans hsecond.symm) hnumeral, hrest⟩
  · exact absurd (congrArg List.head? h) (hminus first rest)
  · exact absurd (congrArg List.head? h).symm (hminus second other)
  · obtain ⟨hnumeral, hrest⟩ := hnumerals (List.cons.inj h).2
    exact ⟨eq_of_numeral_eq (hfirst.trans hsecond.symm) hnumeral, hrest⟩

end NumberSpelling

/-- The kinds of values that the first character of a text tells apart. -/
inductive Leading where
  | null | boolean | number | string | array | object

/-- The kind of value that a first character starts. -/
def Leading.ofChar : Char → Leading
  | 'n' => null
  | 't' | 'f' => boolean
  | '"' => string
  | '[' => array
  | '{' => object
  | _ => number

namespace Spelling

/-- What a spelling of a value starts with. -/
def leading : Spelling .value → Leading
  | null => .null
  | boolean _ => .boolean
  | number _ => .number
  | string _ => .string
  | emptyArray _ | array _ => .array
  | emptyObject _ | object _ => .object

/-- A value starts with a character that tells its kind, and that is neither a blank nor the end
of an array. -/
theorem exists_text_eq_cons (value : Spelling .value) :
    ∃ first more, value.text = first :: more ∧ Leading.ofChar first = value.leading ∧
      ¬IsGap first ∧ first ≠ ']' := by
  cases value with
  | boolean value => cases value <;> exact ⟨_, _, rfl, rfl, by decide, by decide⟩
  | number spelled =>
    have hdigit {c : Char} (hc : c.isDigit) :
        Leading.ofChar c = .number ∧ ¬IsGap c ∧ c ≠ ']' := by
      have hne {other : Char} (hother : ¬other.isDigit) : c ≠ other := ne_of_isDigit hc hother
      refine ⟨?_, ?_, hne (by decide)⟩
      · unfold Leading.ofChar
        split <;> first | rfl | exact absurd hc (by decide)
      · simp only [IsGap, List.mem_cons, List.not_mem_nil, or_false]
        rintro (rfl | rfl | rfl | rfl) <;> exact absurd hc (by decide)
    obtain ⟨first, more, htext, hfirst⟩ := Numeral.exists_text_eq_cons spelled.wellFormed
    cases hnegative : spelled.negative with
    | false =>
      refine ⟨first, more, ?_, hdigit hfirst⟩
      simp [text, NumberSpelling.text, hnegative, htext]
    | true =>
      refine ⟨'-', spelled.numeral.text, ?_, rfl, by decide, by decide⟩
      simp [text, NumberSpelling.text, hnegative]
  | _ => exact ⟨_, _, rfl, rfl, by decide, by decide⟩

/-- A value does not start with whitespace. -/
theorem notBefore_isGap (value : Spelling .value) (rest : List Char) :
    NotBefore IsGap (value.text ++ rest) := by
  obtain ⟨first, more, htext, -, hgap, -⟩ := value.exists_text_eq_cons
  rw [htext]
  exact notBefore_cons.mpr hgap

/-- Spellings of one part that say the same. -/
structure Alike {part : Part} (first second : Spelling part) : Prop where
  value_eq : first.value = second.value
  tokenTexts_eq : first.tokenTexts = second.tokenTexts
  supported_iff : first.Supported ↔ second.Supported
  interoperable_iff : first.Interoperable ↔ second.Interoperable

namespace Alike

/-- Every spelling is like itself. -/
theorem rfl {part : Part} {spelling : Spelling part} : spelling.Alike spelling :=
  ⟨Eq.refl _, Eq.refl _, Iff.rfl, Iff.rfl⟩

variable {value other : Spelling .value} {items more : Spelling .items}
  {members others : Spelling .members} {name name' : List StringUnit}
  {before before' beforeColon beforeColon' afterColon afterColon' after after' : Whitespace}

/-- Strings are alike if their units are. -/
theorem string (h : UnitsAlike name name') : (string name).Alike (string name') where
  value_eq := congrArg Json.string h.value_eq
  tokenTexts_eq := congrArg ([·]) h.quoted_eq
  supported_iff := h.supported_iff
  interoperable_iff := Iff.rfl

/-- Arrays are alike if their items are. -/
theorem array (h : items.Alike more) : (array items).Alike (array more) where
  value_eq := congrArg Json.array h.value_eq
  tokenTexts_eq := by rw [tokenTexts, tokenTexts, h.tokenTexts_eq]
  supported_iff := h.supported_iff
  interoperable_iff := h.interoperable_iff

/-- Objects are alike if their members are. -/
theorem object (h : members.Alike others) : (object members).Alike (object others) where
  value_eq := congrArg (Json.object ∘ Json.mergeMembers) h.value_eq
  tokenTexts_eq := by rw [tokenTexts, tokenTexts, h.tokenTexts_eq]
  supported_iff := h.supported_iff
  interoperable_iff := and_congr (by rw [h.value_eq]) h.interoperable_iff

/-- Last items are alike if their values are, whatever whitespace stands around them. -/
theorem lastItem (h : value.Alike other) :
    (lastItem before value after).Alike (lastItem before' other after') where
  value_eq := congrArg ([·]) h.value_eq
  tokenTexts_eq := h.tokenTexts_eq
  supported_iff := h.supported_iff
  interoperable_iff := h.interoperable_iff

/-- Items are alike if the first ones and the others are, whatever whitespace stands around them. -/
theorem item (h : value.Alike other) (hrest : items.Alike more) :
    (item before value after items).Alike (item before' other after' more) where
  value_eq := congrArg₂ List.cons h.value_eq hrest.value_eq
  tokenTexts_eq := by rw [tokenTexts, tokenTexts, h.tokenTexts_eq, hrest.tokenTexts_eq]
  supported_iff := and_congr h.supported_iff hrest.supported_iff
  interoperable_iff := and_congr h.interoperable_iff hrest.interoperable_iff

/-- Last members are alike if their names and values are, whatever whitespace stands around them. -/
theorem lastMember (hname : UnitsAlike name name') (h : value.Alike other) :
    (lastMember before name beforeColon afterColon value after).Alike
      (lastMember before' name' beforeColon' afterColon' other after') where
  value_eq := congrArg₂ (fun name value => [(name, value)]) hname.value_eq h.value_eq
  tokenTexts_eq := by rw [tokenTexts, tokenTexts, hname.quoted_eq, h.tokenTexts_eq]
  supported_iff := and_congr hname.supported_iff h.supported_iff
  interoperable_iff := h.interoperable_iff

/-- Members are alike if the first ones and the others are, whatever whitespace stands around
them. -/
theorem member (hname : UnitsAlike name name') (h : value.Alike other)
    (hrest : members.Alike others) :
    (member before name beforeColon afterColon value after members).Alike
      (member before' name' beforeColon' afterColon' other after' others) where
  value_eq :=
    congrArg₂ List.cons (congrArg₂ Prod.mk hname.value_eq h.value_eq) hrest.value_eq
  tokenTexts_eq := by
    rw [tokenTexts, tokenTexts, hname.quoted_eq, h.tokenTexts_eq, hrest.tokenTexts_eq]
  supported_iff := and_congr hname.supported_iff (and_congr h.supported_iff hrest.supported_iff)
  interoperable_iff := and_congr h.interoperable_iff hrest.interoperable_iff

end Alike

/-- All spellings with the text of a part, before what ends it, say the same and end there. -/
def IsUnambiguous : {part : Part} → Spelling part → Prop
  | .value, value => ∀ (other : Spelling .value) (rest left : List Char),
      NotBefore Extends rest → NotBefore Extends left →
      value.text ++ rest = other.text ++ left → value.Alike other ∧ rest = left
  | .items, items => ∀ (other : Spelling .items) (rest left : List Char),
      items.text ++ ']' :: rest = other.text ++ ']' :: left → items.Alike other ∧ rest = left
  | .members, members => ∀ (other : Spelling .members) (rest left : List Char),
      members.text ++ '}' :: rest = other.text ++ '}' :: left → members.Alike other ∧ rest = left

/-- The signs that end an item or a member. -/
def Separates (sign : Char) : Prop := sign ∈ [',', ']', '}']

/-- A sign between values is no whitespace. -/
theorem Separates.not_isGap {sign : Char} (h : Separates sign) : ¬IsGap sign := by
  simp only [Separates, List.mem_cons, List.not_mem_nil, or_false] at h
  rcases h with rfl | rfl | rfl <;> decide

/-- A sign between values continues nothing. -/
theorem Separates.notBefore {sign : Char} (h : Separates sign) (rest : List Char) :
    NotBefore Extends (sign :: rest) := by
  simp only [Separates, List.mem_cons, List.not_mem_nil, or_false] at h
  rcases h with rfl | rfl | rfl <;> exact notBefore_cons.mpr (by simp [Extends, isWordChar])

/-- A comma stands between values. -/
theorem separates_comma : Separates ',' := List.mem_cons_self

/-- A bracket stands behind values. -/
theorem separates_bracket : Separates ']' := by simp [Separates]

/-- A brace stands behind values. -/
theorem separates_brace : Separates '}' := by simp [Separates]

variable {value other : Spelling .value} {before before' after after' : Whitespace}
  {sign sign' : Char} {rest left : List Char}

/-- An item with the blanks around it and the sign after it is told by the text. -/
theorem IsUnambiguous.item_inj (h : value.IsUnambiguous) (hsign : Separates sign)
    (hsign' : Separates sign')
    (htext : before.text ++ (value.text ++ (after.text ++ sign :: rest)) =
      before'.text ++ (other.text ++ (after'.text ++ sign' :: left))) :
    value.Alike other ∧ sign = sign' ∧ rest = left := by
  have hvalue :=
    Whitespace.text_append_inj htext (value.notBefore_isGap _) (other.notBefore_isGap _)
  obtain ⟨halike, hafter⟩ := h other _ _ (notBefore_extends_blank (hsign.notBefore rest))
    (notBefore_extends_blank (hsign'.notBefore left)) hvalue
  have hsigns := Whitespace.text_append_inj hafter (notBefore_cons.mpr hsign.not_isGap)
    (notBefore_cons.mpr hsign'.not_isGap)
  exact ⟨halike, List.cons.inj hsigns⟩

/-- A member with the blanks in it and the sign after it is told by the text. -/
theorem IsUnambiguous.member_inj (h : value.IsUnambiguous) (hsign : Separates sign)
    (hsign' : Separates sign') {name name' : List StringUnit}
    {beforeColon afterColon beforeColon' afterColon' : Whitespace}
    (htext : before.text ++ (quoted name ++ (beforeColon.text ++ ':' :: (afterColon.text ++
        (value.text ++ (after.text ++ sign :: rest))))) =
      before'.text ++ (quoted name' ++ (beforeColon'.text ++ ':' :: (afterColon'.text ++
        (other.text ++ (after'.text ++ sign' :: left)))))) :
    UnitsAlike name name' ∧ value.Alike other ∧ sign = sign' ∧ rest = left := by
  have hquote (units : List StringUnit) (rest : List Char) :
      NotBefore IsGap (quoted units ++ rest) := notBefore_cons.mpr (by decide)
  have hcolon (rest : List Char) : NotBefore IsGap (':' :: rest) := notBefore_cons.mpr (by decide)
  obtain ⟨hname, hrest⟩ :=
    quoted_append_inj (Whitespace.text_append_inj htext (hquote name _) (hquote name' _))
  have hitem := (List.cons.inj (Whitespace.text_append_inj hrest (hcolon _) (hcolon _))).2
  exact ⟨hname, h.item_inj hsign hsign' hitem⟩

/-- Values with one text start alike. -/
theorem leading_eq_of_text_append {value other : Spelling .value} {rest left : List Char}
    (h : value.text ++ rest = other.text ++ left) : value.leading = other.leading := by
  obtain ⟨first, more, htext, hleading, -⟩ := value.exists_text_eq_cons
  obtain ⟨first', more', htext', hleading', -⟩ := other.exists_text_eq_cons
  rw [htext, htext'] at h
  rw [← hleading, ← hleading', (List.cons.inj h).1]

/-- Items start with something that is neither a blank nor the end of an array. -/
theorem exists_items_text_eq (items : Spelling .items) : ∃ (gap : Whitespace) (first : Char)
    (more : List Char), items.text = gap.text ++ first :: more ∧ ¬IsGap first ∧ first ≠ ']' := by
  cases items with
  | lastItem before value after =>
    obtain ⟨first, more, htext, -, hfirst⟩ := value.exists_text_eq_cons
    exact ⟨before, first, more ++ after.text, by simp [text, htext], hfirst⟩
  | item before value after rest =>
    obtain ⟨first, more, htext, -, hfirst⟩ := value.exists_text_eq_cons
    exact ⟨before, first, more ++ (after.text ++ ',' :: rest.text), by simp [text, htext], hfirst⟩

/-- Members start with the name of the first one. -/
theorem exists_members_text_eq (members : Spelling .members) : ∃ (gap : Whitespace)
    (more : List Char), members.text = gap.text ++ '"' :: more := by
  cases members with
  | lastMember before | member before =>
    rw [text]
    simp only [List.append_assoc]
    exact ⟨before, _, rfl⟩

/-- The empty array has the text of no other one. -/
theorem emptyArray_ne_array {inside : Whitespace} {items : Spelling .items}
    {rest left : List Char} :
    (emptyArray inside).text ++ rest ≠ (array items).text ++ left := by
  intro h
  obtain ⟨gap, first, more, htext, hgap, hfirst⟩ := items.exists_items_text_eq
  simp only [text, htext, List.append_assoc, List.cons_append, List.nil_append, List.cons.injEq,
    true_and] at h
  have hstart := Whitespace.text_append_inj h (notBefore_cons.mpr (by decide))
    (notBefore_cons.mpr hgap)
  exact hfirst (List.cons.inj hstart).1.symm

/-- The empty object has the text of no other one. -/
theorem emptyObject_ne_object {inside : Whitespace} {members : Spelling .members}
    {rest left : List Char} :
    (emptyObject inside).text ++ rest ≠ (object members).text ++ left := by
  intro h
  obtain ⟨gap, more, htext⟩ := members.exists_members_text_eq
  simp only [text, htext, List.append_assoc, List.cons_append, List.nil_append, List.cons.injEq,
    true_and] at h
  have hstart := Whitespace.text_append_inj h (notBefore_cons.mpr (by decide))
    (notBefore_cons.mpr (by decide))
  exact absurd (List.cons.inj hstart).1 (by decide)

/-- A text tells the spelling, up to what spellings that are alike may differ in. -/
theorem isUnambiguous {part : Part} (spelling : Spelling part) : spelling.IsUnambiguous := by
  induction spelling with
  | null =>
    intro other rest left _ _ h
    cases other with
    | null => exact ⟨.rfl, List.append_cancel_left h⟩
    | _ => cases leading_eq_of_text_append h
  | boolean value =>
    intro other rest left _ _ h
    cases other with
    | boolean value' =>
      cases value <;> cases value' <;>
        first
        | exact ⟨.rfl, List.append_cancel_left h⟩
        | exact absurd (List.cons.inj h).1 (by decide)
    | _ => cases leading_eq_of_text_append h
  | number spelled =>
    intro other rest left hrest hleft h
    cases other with
    | number spelled' =>
      obtain ⟨rfl, rfl⟩ := NumberSpelling.text_append_inj h hrest hleft
      exact ⟨.rfl, rfl⟩
    | _ => cases leading_eq_of_text_append h
  | string units =>
    intro other rest left _ _ h
    cases other with
    | string units' =>
      obtain ⟨hunits, hrest⟩ := quoted_append_inj h
      exact ⟨.string hunits, hrest⟩
    | _ => cases leading_eq_of_text_append h
  | emptyArray inside =>
    intro other rest left _ _ h
    cases other with
    | emptyArray inside' =>
      simp only [text, List.append_assoc, List.cons_append, List.nil_append, List.cons.injEq,
        true_and] at h
      have hclose := Whitespace.text_append_inj h (notBefore_cons.mpr (by decide))
        (notBefore_cons.mpr (by decide))
      exact ⟨⟨rfl, rfl, Iff.rfl, Iff.rfl⟩, (List.cons.inj hclose).2⟩
    | array => exact absurd h emptyArray_ne_array
    | _ => cases leading_eq_of_text_append h
  | array items ih =>
    intro other rest left _ _ h
    cases other with
    | emptyArray => exact absurd h.symm emptyArray_ne_array
    | array items' =>
      obtain ⟨halike, hrest⟩ := ih items' rest left (by simpa [text] using h)
      exact ⟨.array halike, hrest⟩
    | _ => cases leading_eq_of_text_append h
  | emptyObject inside =>
    intro other rest left _ _ h
    cases other with
    | emptyObject inside' =>
      simp only [text, List.append_assoc, List.cons_append, List.nil_append, List.cons.injEq,
        true_and] at h
      have hclose := Whitespace.text_append_inj h (notBefore_cons.mpr (by decide))
        (notBefore_cons.mpr (by decide))
      exact ⟨⟨rfl, rfl, Iff.rfl, Iff.rfl⟩, (List.cons.inj hclose).2⟩
    | object => exact absurd h emptyObject_ne_object
    | _ => cases leading_eq_of_text_append h
  | object members ih =>
    intro other rest left _ _ h
    cases other with
    | emptyObject => exact absurd h.symm emptyObject_ne_object
    | object members' =>
      obtain ⟨halike, hrest⟩ := ih members' rest left (by simpa [text] using h)
      exact ⟨.object halike, hrest⟩
    | _ => cases leading_eq_of_text_append h
  | lastItem before value after ih =>
    intro other rest left h
    cases other with
    | lastItem before' other after' =>
      obtain ⟨halike, -, hrest⟩ := ih.item_inj separates_bracket separates_bracket
        (by simpa only [text, List.append_assoc] using h)
      exact ⟨.lastItem halike, hrest⟩
    | item before' other after' more =>
      obtain ⟨-, hsign, -⟩ := ih.item_inj separates_bracket separates_comma
        (by simpa only [text, List.append_assoc, List.cons_append] using h)
      exact absurd hsign (by decide)
  | item before value after items ih ihRest =>
    intro other rest left h
    cases other with
    | lastItem before' other after' =>
      obtain ⟨-, hsign, -⟩ := ih.item_inj separates_comma separates_bracket
        (by simpa only [text, List.append_assoc, List.cons_append] using h)
      exact absurd hsign (by decide)
    | item before' other after' more =>
      obtain ⟨halike, -, hitems⟩ := ih.item_inj separates_comma separates_comma
        (by simpa only [text, List.append_assoc, List.cons_append] using h)
      obtain ⟨hmore, hrest⟩ := ihRest more rest left hitems
      exact ⟨.item halike hmore, hrest⟩
  | lastMember before name beforeColon afterColon value after ih =>
    intro other rest left h
    cases other with
    | lastMember =>
      obtain ⟨hname, halike, -, hrest⟩ := ih.member_inj separates_brace separates_brace
        (by simpa only [text, List.append_assoc, List.cons_append] using h)
      exact ⟨.lastMember hname halike, hrest⟩
    | member =>
      obtain ⟨-, -, hsign, -⟩ := ih.member_inj separates_brace separates_comma
        (by simpa only [text, List.append_assoc, List.cons_append] using h)
      exact absurd hsign (by decide)
  | member before name beforeColon afterColon value after members ih ihRest =>
    intro other rest left h
    cases other with
    | lastMember =>
      obtain ⟨-, -, hsign, -⟩ := ih.member_inj separates_comma separates_brace
        (by simpa only [text, List.append_assoc, List.cons_append] using h)
      exact absurd hsign (by decide)
    | member _ _ _ _ _ _ more =>
      obtain ⟨hname, halike, -, hmembers⟩ := ih.member_inj separates_comma separates_comma
        (by simpa only [text, List.append_assoc, List.cons_append] using h)
      obtain ⟨hmore, hrest⟩ := ihRest more rest left hmembers
      exact ⟨.member hname halike hmore, hrest⟩

end Spelling

/-- Two documents with the same text say the same. -/
theorem DocumentSpelling.alike_of_text_eq {document other : DocumentSpelling}
    (h : document.text = other.text) : document.root.Alike other.root := by
  have htext := String.ofList_injective h
  rw [List.append_assoc, List.append_assoc] at htext
  have hroot := Whitespace.text_append_inj htext (document.root.notBefore_isGap _)
    (other.root.notBefore_isGap _)
  have hafter (gap : Whitespace) : NotBefore Extends gap.text := by
    have hblank : NotBefore Extends (gap.text ++ []) := notBefore_extends_blank (notBefore_nil _)
    rwa [List.append_nil] at hblank
  exact (document.root.isUnambiguous other.root _ _ (hafter _) (hafter _) hroot).1

end JsonTemplate
