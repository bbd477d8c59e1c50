import JsonTemplate.Json.Printer
import JsonTemplate.Proofs.Json.Canonical
import JsonTemplate.Proofs.Json.Embedding
import JsonTemplate.Proofs.Json.TokenTexts
import JsonTemplate.Proofs.Number.Readback

/-!
# Printed values as spellings

What a canonical value is printed as is a spelling of that value, whatever blanks the printer
puts around the signs. The spelling holds containers and negated numbers exactly where the
value holds containers and negative numbers, so both fit into the same levels. Without its blanks
it is the compact text of the value.
-/

namespace JsonTemplate

/-- A spacing of nothing but blanks around the signs. -/
structure Spacing.IsBlank (spacing : Spacing) : Prop where
  line : ∀ depth, ∀ c ∈ spacing.line depth, c ∈ [' ', '\t', '\n', '\r']
  colon : ∃ after : Whitespace, spacing.colon = ':' :: after.text

namespace Spacing

/-- The compact layout puts no more than whitespace between tokens. -/
theorem isBlank_compact : compact.IsBlank where
  line := nofun
  colon := ⟨.empty, rfl⟩

/-- The indented layout puts no more than whitespace between tokens. -/
theorem isBlank_indented : indented.IsBlank where
  line depth c hc := by
    rcases List.mem_cons.mp hc with rfl | hblank
    · decide
    · rw [List.eq_of_mem_replicate hblank]
      decide
  colon := ⟨⟨[' '], by simp⟩, rfl⟩

end Spacing

/-- The numbered form of a control character is its number. -/
theorem number_of_lt {n : Nat} (h : n < 32) :
    StringUnit.number ⟨0, false⟩ ⟨0, false⟩ ⟨⟨n / 16, by omega⟩, false⟩
      ⟨⟨n % 16, by omega⟩, false⟩ = n := by
  simp only [StringUnit.number, Fin.val_zero]
  omega

/-- A character between quotes is written as one unit that stands for it. -/
theorem exists_unit (c : Char) :
    ∃ unit : StringUnit, unit.text = quoteChar c ∧ unit.value = c ∧ unit.Supported := by
  have hescape (letter decoded : Char) (hmem : (letter, decoded) ∈ escapes) (hc : c = decoded) :
      ∃ unit : StringUnit, unit.text = ['\\', letter] ∧ unit.value = c ∧ unit.Supported :=
    ⟨.escaped letter decoded hmem, rfl, hc.symm, trivial⟩
  unfold quoteChar
  split
  · exact hescape '"' '"' (by decide) ‹_›
  split
  · exact hescape '\\' '\\' (by decide) ‹_›
  split
  · exact hescape 'b' '\x08' (by decide) ‹_›
  split
  · exact hescape 'f' '\x0c' (by decide) ‹_›
  split
  · exact hescape 'n' '\n' (by decide) ‹_›
  split
  · exact hescape 'r' '\r' (by decide) ‹_›
  split
  · exact hescape 't' '\t' (by decide) ‹_›
  split
  · rename_i hcontrol
    have hlt : c.toNat < 32 := hcontrol
    have hnumber := number_of_lt hlt
    refine ⟨.numbered ⟨0, false⟩ ⟨0, false⟩ ⟨⟨c.toNat / 16, by omega⟩, false⟩
      ⟨⟨c.toNat % 16, by omega⟩, false⟩, rfl, ?_, ?_⟩
    · rw [StringUnit.value, hnumber, Char.ofNat_toNat]
    · rw [StringUnit.Supported, hnumber]
      omega
  · rename_i hquote hbackslash _ _ _ _ _ hcontrol
    exact ⟨.plain c ⟨Char.not_lt.mp hcontrol, hquote, hbackslash⟩, rfl, rfl, trivial⟩

/-- A quoted text is a string literal that stands for it. -/
theorem exists_units (text : List Char) :
    ∃ units, quoted units = quote text ∧ unitsValue units = .ofList text ∧
      ∀ unit ∈ units, unit.Supported := by
  have hunits : ∃ units, unitsText units = text.flatMap quoteChar ∧
      units.map (·.value) = text ∧ ∀ unit ∈ units, StringUnit.Supported unit := by
    induction text with
    | nil => exact ⟨[], rfl, rfl, nofun⟩
    | cons c rest ih =>
      obtain ⟨unit, htext, hvalue, hsupported⟩ := exists_unit c
      obtain ⟨units, htexts, hvalues, hall⟩ := ih
      refine ⟨unit :: units, ?_, ?_, List.forall_mem_cons.mpr ⟨hsupported, hall⟩⟩
      · rw [unitsText, List.flatMap_cons, List.flatMap_cons, htext, ← htexts, unitsText]
      · rw [List.map_cons, hvalue, hvalues]
  obtain ⟨units, htext, hvalue, hall⟩ := hunits
  refine ⟨units, ?_, ?_, hall⟩
  · rw [quoted, htext, quote]
  · rw [unitsValue, hvalue]

/-- Every string is spelled by some units when it is quoted. -/
theorem exists_units_of_string (text : String) :
    ∃ units, quoted units = quote text.toList ∧ unitsValue units = text ∧
      ∀ unit ∈ units, unit.Supported := by
  obtain ⟨units, hquoted, hvalue, hall⟩ := exists_units text.toList
  exact ⟨units, hquoted, hvalue.trans String.ofList_toList, hall⟩

namespace NumberSpelling

/-- The spelling of a 64-bit integer without leading zeros. -/
def ofInteger (value : Int64) : NumberSpelling where
  negative := value.toInt < 0
  numeral := ⟨Nat.toDigits 10 value.toInt.natAbs, none, none⟩
  wellFormed := ⟨allDigits_toDigits _, Nat.toDigits_ne_nil, nofun, nofun⟩
  whole_eq hhead := by
    rcases Nat.eq_zero_or_pos value.toInt.natAbs with hzero | hpos
    · rw [hzero]
      rfl
    · exact absurd hhead (head?_toDigits_ne hpos)
  fraction_ne_nil := nofun

/-- The spelling of an integer stands for that integer. -/
theorem integer_ofInteger (value : Int64) : (ofInteger value).integer = value.toInt := by
  simp only [integer, ofInteger, readDigits_toDigits, decide_eq_true_eq]
  split <;> omega

/-- The spelling of an integer is its text. -/
theorem text_ofInteger (value : Int64) : (ofInteger value).text = integerText value.toInt := by
  simp [text, ofInteger, integerText, Numeral.text, Numeral.fractionText, Numeral.exponentText]

/-- A finite double is printed as a number that stands for it. -/
theorem exists_ofDouble {value : Double} (h : value.isFinite) :
    ∃ number : NumberSpelling, number.text = Layout.json.text value ∧
      number.numeral.isFloat = true ∧ number.double = value ∧
      number.numeral.double.isFinite = true ∧ number.negative = value.negative := by
  obtain ⟨negative, magnitude, hlt⟩ := value
  have hfinite : magnitude < infiniteMagnitude := of_decide_eq_true h
  obtain ⟨numeral, htext, hdenotes⟩ := Layout.exists_numeral hfinite
  have hdouble : numeral.double = ⟨false, magnitude, hlt⟩ := by
    simp only [Numeral.double, Decimal.toDouble, hdenotes.magnitude_eq]
  refine ⟨⟨negative, numeral, hdenotes.wellFormed, hdenotes.whole_eq, hdenotes.fraction_ne_nil⟩,
    ?_, hdenotes.isFloat, ?_, ?_, rfl⟩
  · have hnan : ¬infiniteMagnitude < magnitude := Nat.not_lt.mpr (Nat.le_of_lt hfinite)
    have hinfinite : ¬magnitude = infiniteMagnitude := Nat.ne_of_lt hfinite
    simp only [text, Layout.text, htext, Double.isNaN, Double.isInfinite, decide_eq_true_eq,
      beq_iff_eq, if_neg hnan, if_neg hinfinite]
  · rw [double, hdouble]
    cases negative <;> rfl
  · rw [hdouble]
    exact h

end NumberSpelling

namespace Spelling

/-- A supported and interoperable spelling with the given text and meaning that fits where a
condition holds, and the text that its tokens form without blanks. -/
structure Renders {part : Part} (spelling : Spelling part) (text compact : List Char)
    (value : part.Value) (fits : Nat → Prop) : Prop where
  text_eq : spelling.text = text
  compact_eq : spelling.tokenTexts.flatten = compact
  value_eq : spelling.value = value
  supported : spelling.Supported
  interoperable : spelling.Interoperable
  fits_iff : ∀ levels, spelling.Fits levels ↔ fits levels

/-- A value is printed as a spelling of it at every depth. -/
def IsPrinted (spacing : Spacing) (json : Json) : Prop :=
  ∀ depth, ∃ spelling : Spelling .value,
    spelling.Renders (json.text spacing depth) (json.text .compact depth) json json.Fits

/-- A spelling stands for an array or object if it spells one. -/
theorem isContainer_value_iff (spelling : Spelling .value) :
    Json.IsContainer spelling.value ↔ spelling.IsContainer := by
  cases spelling with
  | number spelled =>
    change Json.IsContainer spelled.value ↔ False
    rw [NumberSpelling.value]
    split <;> exact Iff.rfl
  | _ => exact Iff.rfl

/-- A value without parts fits as its spelling does if both are nested alike. -/
theorem fits_scalar {json : Json} (hjson : ¬json.IsContainer) {P : Prop}
    (h : json.IsNested ↔ P) (levels : Nat) : (P → 0 < levels) ↔ json.Fits levels := by
  rw [Json.fits_of_not_isContainer hjson, h]

/-- Where nothing is nested, everything fits. -/
theorem fits_unnested {json : Json} (hjson : ¬json.IsContainer) (h : ¬json.IsNested)
    (levels : Nat) : True ↔ json.Fits levels := by
  rw [Json.fits_of_not_isContainer hjson]
  exact iff_of_true trivial fun hnested => absurd hnested h

variable {spacing : Spacing}

/-- An integer is printed as it is spelled. -/
theorem isPrinted_integer (value : Int64) : IsPrinted spacing (.integer value) := by
  intro depth
  have hinteger := NumberSpelling.integer_ofInteger value
  have hrange : -2 ^ 63 ≤ (NumberSpelling.ofInteger value).integer ∧
      (NumberSpelling.ofInteger value).integer < 2 ^ 63 := by
    rw [hinteger]
    exact ⟨value.le_toInt, value.toInt_lt⟩
  refine ⟨.number (.ofInteger value), NumberSpelling.text_ofInteger value, ?_, ?_, hrange,
    Or.inl ⟨rfl, hrange⟩, ?_⟩
  · rw [tokenTexts, List.flatten_singleton, NumberSpelling.text_ofInteger]
    rfl
  · change Json.integer (.ofInt _) = _
    rw [hinteger, Int64.ofInt_toInt]
  · apply fits_scalar id
    rw [NumberSpelling.IsNegated, hinteger, NumberSpelling.ofInteger]
    simp [Json.IsNested, Numeral.isFloat]

/-- A finite double is printed as it is spelled. -/
theorem isPrinted_float {value : Double} (h : value.isFinite) :
    IsPrinted spacing (.float value) := by
  intro depth
  obtain ⟨number, htext, hfloat, hdouble, hfinite, hnegative⟩ := NumberSpelling.exists_ofDouble h
  refine ⟨.number number, htext, ?_, ?_, ?_, Or.inr ⟨value, h, htext⟩, ?_⟩
  · rw [tokenTexts, List.flatten_singleton, htext]
    rfl
  · change number.value = _
    rw [NumberSpelling.value, if_pos hfloat, hdouble]
  · change number.Supported
    rw [NumberSpelling.Supported, if_pos hfloat]
    exact hfinite
  · apply fits_scalar id
    rw [NumberSpelling.IsNegated, hnegative, and_iff_left (Or.inl hfloat)]
    exact Iff.rfl

/-- A string is printed as it is spelled. -/
theorem isPrinted_string (text : String) : IsPrinted spacing (.string text) := by
  intro depth
  obtain ⟨units, hquoted, hvalue, hall⟩ := exists_units_of_string text
  refine ⟨.string units, hquoted, ?_, ?_, hall, trivial, fits_unnested id id⟩
  · rw [tokenTexts, List.flatten_singleton, hquoted]
    rfl
  · change Json.string (unitsValue units) = _
    rw [hvalue]

/-- Items that are printed one below the other are the items of an array. -/
theorem exists_items (hspacing : spacing.IsBlank) (depth : Nat) {items : List Json}
    (hne : items ≠ []) (h : ∀ item ∈ items, IsPrinted spacing item) :
    ∃ spelling : Spelling .items,
      spelling.Renders
        (spacing.line (depth + 1) ++ (',' :: spacing.line (depth + 1)).intercalate
          (Json.itemTexts spacing (depth + 1) items) ++ spacing.line depth)
        ([','].intercalate (Json.itemTexts .compact (depth + 1) items)) items
        fun levels => ∀ item ∈ items, item.Fits levels := by
  induction items with
  | nil => exact absurd rfl hne
  | cons item rest ih =>
    obtain ⟨hitem, hrest⟩ := List.forall_mem_cons.mp h
    obtain ⟨spelled, hspelled⟩ := hitem (depth + 1)
    cases rest with
    | nil =>
      refine ⟨.lastItem ⟨_, hspacing.line (depth + 1)⟩ spelled ⟨_, hspacing.line depth⟩, ?_, ?_,
        ?_, ?_, ?_, fun levels => ?_⟩
      · rw [Json.itemTexts, Json.itemTexts, List.intercalate_singleton, ← hspelled.text_eq]
        rfl
      · rw [Json.itemTexts, Json.itemTexts, List.intercalate_singleton, ← hspelled.compact_eq]
        rfl
      · exact congrArg (fun value => [value]) hspelled.value_eq
      · exact hspelled.supported
      · exact hspelled.interoperable
      · rw [List.forall_mem_singleton]
        exact hspelled.fits_iff levels
    | cons second more =>
      obtain ⟨spelledRest, hspelledRest⟩ := ih (List.cons_ne_nil _ _) hrest
      refine ⟨.item ⟨_, hspacing.line (depth + 1)⟩ spelled .empty spelledRest, ?_, ?_, ?_, ?_, ?_,
        fun levels => ?_⟩
      · rw [text, hspelled.text_eq, hspelledRest.text_eq]
        simp [Json.itemTexts]
      · rw [tokenTexts, List.flatten_append, List.flatten_cons, hspelled.compact_eq,
          hspelledRest.compact_eq]
        simp [Json.itemTexts]
      · exact congrArg₂ List.cons hspelled.value_eq hspelledRest.value_eq
      · exact ⟨hspelled.supported, hspelledRest.supported⟩
      · exact ⟨hspelled.interoperable, hspelledRest.interoperable⟩
      · rw [List.forall_mem_cons]
        exact and_congr (hspelled.fits_iff levels) (hspelledRest.fits_iff levels)

/-- Members that are printed one below the other are the members of an object. -/
theorem exists_members (hspacing : spacing.IsBlank) (depth : Nat)
    {members : List (String × Json)} (hne : members ≠ [])
    (h : ∀ member ∈ members, IsPrinted spacing member.2) :
    ∃ spelling : Spelling .members,
      spelling.Renders
        (spacing.line (depth + 1) ++ (',' :: spacing.line (depth + 1)).intercalate
          (Json.memberTexts spacing (depth + 1) members) ++ spacing.line depth)
        ([','].intercalate (Json.memberTexts .compact (depth + 1) members)) members
        fun levels => ∀ member ∈ members, member.2.Fits levels := by
  obtain ⟨afterColon, hcolon⟩ := hspacing.colon
  induction members with
  | nil => exact absurd rfl hne
  | cons member rest ih =>
    obtain ⟨name, value⟩ := member
    obtain ⟨hvalue, hrest⟩ := List.forall_mem_cons.mp h
    obtain ⟨spelled, hspelled⟩ := hvalue (depth + 1)
    obtain ⟨units, hquoted, hname, hunits⟩ := exists_units_of_string name
    cases rest with
    | nil =>
      refine ⟨.lastMember ⟨_, hspacing.line (depth + 1)⟩ units .empty afterColon spelled
        ⟨_, hspacing.line depth⟩, ?_, ?_, ?_, ?_, ?_, fun levels => ?_⟩
      · rw [text, hspelled.text_eq, hquoted]
        simp [Json.memberTexts, hcolon]
      · rw [tokenTexts, List.flatten_cons, List.flatten_cons, hspelled.compact_eq, hquoted]
        simp [Json.memberTexts, Spacing.compact]
      · exact congrArg₂ (fun name value => [(name, value)]) hname hspelled.value_eq
      · exact ⟨hunits, hspelled.supported⟩
      · exact hspelled.interoperable
      · rw [List.forall_mem_singleton]
        exact hspelled.fits_iff levels
    | cons second more =>
      obtain ⟨spelledRest, hspelledRest⟩ := ih (List.cons_ne_nil _ _) hrest
      refine ⟨.member ⟨_, hspacing.line (depth + 1)⟩ units .empty afterColon spelled .empty
        spelledRest, ?_, ?_, ?_, ?_, ?_, fun levels => ?_⟩
      · rw [text, hspelled.text_eq, hspelledRest.text_eq, hquoted]
        simp [Json.memberTexts, hcolon]
      · rw [tokenTexts, List.flatten_append, List.flatten_cons, List.flatten_cons,
          List.flatten_cons, hspelled.compact_eq, hspelledRest.compact_eq, hquoted]
        simp [Json.memberTexts, Spacing.compact]
      · exact congrArg₂ List.cons (congrArg₂ Prod.mk hname hspelled.value_eq)
          hspelledRest.value_eq
      · exact ⟨hunits, hspelled.supported, hspelledRest.supported⟩
      · exact ⟨hspelled.interoperable, hspelledRest.interoperable⟩
      · rw [List.forall_mem_cons]
        exact and_congr (hspelled.fits_iff levels) (hspelledRest.fits_iff levels)

/-- Items between brackets, each on a line of its own where lines are broken. -/
theorem bracketed_of_ne_nil (depth : Nat) (opening closing : Char) {items : List (List Char)}
    (h : items ≠ []) : bracketed spacing depth opening closing items =
      opening :: (spacing.line (depth + 1) ++
        (',' :: spacing.line (depth + 1)).intercalate items ++ spacing.line depth) ++
        [closing] := by
  obtain ⟨first, rest, rfl⟩ := List.exists_cons_of_ne_nil h
  simp [bracketed]

/-- Without blanks the items are separated by commas alone. -/
theorem bracketed_compact (depth : Nat) (opening closing : Char) {items : List (List Char)}
    (h : items ≠ []) : bracketed .compact depth opening closing items =
      opening :: [','].intercalate items ++ [closing] := by
  rw [bracketed_of_ne_nil depth opening closing h]
  simp [Spacing.compact]

/-- Brackets around tokens are brackets around their text. -/
theorem flatten_bracketed (opening closing : Char) (tokens : List (List Char)) :
    ([opening] :: tokens ++ [[closing]]).flatten = opening :: tokens.flatten ++ [closing] := by
  simp

/-- An array is printed as it is spelled, if its items are. -/
theorem isPrinted_array (hspacing : spacing.IsBlank) {items : List Json}
    (h : ∀ item ∈ items, IsPrinted spacing item) : IsPrinted spacing (.array items) := by
  intro depth
  cases items with
  | nil =>
    refine ⟨.emptyArray .empty, rfl, rfl, rfl, trivial, trivial, fun levels => ?_⟩
    rw [Json.fits_array, and_iff_left (List.forall_mem_nil _)]
    exact Iff.rfl
  | cons first rest =>
    obtain ⟨spelled, hspelled⟩ := exists_items hspacing depth (List.cons_ne_nil _ _) h
    refine ⟨.array spelled, ?_, ?_, ?_, hspelled.supported, hspelled.interoperable,
      fun levels => ?_⟩
    · rw [text, hspelled.text_eq, Json.text, bracketed_of_ne_nil]
      exact List.cons_ne_nil _ _
    · rw [tokenTexts, flatten_bracketed, hspelled.compact_eq, Json.text, bracketed_compact]
      exact List.cons_ne_nil _ _
    · exact congrArg Json.array hspelled.value_eq
    · rw [Json.fits_array, ← hspelled.fits_iff]
      exact Iff.rfl

/-- An object without repeated names is printed as it is spelled, if its members are. -/
theorem isPrinted_object (hspacing : spacing.IsBlank) {members : List (String × Json)}
    (hnodup : (Json.names members).Nodup)
    (h : ∀ member ∈ members, IsPrinted spacing member.2) :
    IsPrinted spacing (.object members) := by
  intro depth
  cases members with
  | nil =>
    refine ⟨.emptyObject .empty, rfl, rfl, rfl, trivial, trivial, fun levels => ?_⟩
    rw [Json.fits_object, and_iff_left (List.forall_mem_nil _)]
    exact Iff.rfl
  | cons first rest =>
    obtain ⟨spelled, hspelled⟩ := exists_members hspacing depth (List.cons_ne_nil _ _) h
    refine ⟨.object spelled, ?_, ?_, ?_, hspelled.supported, ⟨?_, hspelled.interoperable⟩,
      fun levels => ?_⟩
    · rw [text, hspelled.text_eq, Json.text, bracketed_of_ne_nil]
      exact List.cons_ne_nil _ _
    · rw [tokenTexts, flatten_bracketed, hspelled.compact_eq, Json.text, bracketed_compact]
      exact List.cons_ne_nil _ _
    · change Json.object (Json.mergeMembers spelled.value) = _
      rw [hspelled.value_eq, Json.mergeMembers_of_nodup hnodup]
    · rw [hspelled.value_eq]
      exact hnodup
    · rw [Json.fits_object, ← hspelled.fits_iff]
      exact Iff.rfl

/-- A canonical value is printed as a spelling of it. -/
theorem isPrinted_of_canonical (hspacing : spacing.IsBlank) {json : Json}
    (h : json.Canonical) : IsPrinted spacing json := by
  induction h with
  | null => exact fun _ => ⟨.null, rfl, rfl, rfl, trivial, trivial, fits_unnested id id⟩
  | boolean value =>
    exact fun _ => ⟨.boolean value, by cases value <;> rfl, by cases value <;> rfl, rfl, trivial,
      trivial, fits_unnested id id⟩
  | integer value => exact isPrinted_integer value
  | float hfinite => exact isPrinted_float hfinite
  | string text => exact isPrinted_string text
  | array _ ih => exact isPrinted_array hspacing ih
  | object hnodup _ ih => exact isPrinted_object hspacing hnodup ih

end Spelling

/-- A canonical container is printed as a document that stands for it. -/
theorem exists_documentSpelling {spacing : Spacing} (hspacing : spacing.IsBlank) {json : Json}
    (h : json.Canonical) (hcontainer : json.IsContainer) :
    ∃ document : DocumentSpelling, document.text = .ofList (json.render spacing) ∧
      document.root.value = json ∧ document.root.Supported ∧ document.root.Interoperable ∧
      document.tokenTexts.flatten = json.render .compact ∧
      (document.IsShallow ↔ json.IsShallow) := by
  obtain ⟨root, htext, hcompact, hvalue, hsupported, hinteroperable, hfits⟩ :=
    Spelling.isPrinted_of_canonical hspacing h 0
  have hroot : root.IsContainer := by
    rw [← Spelling.isContainer_value_iff, hvalue]
    exact hcontainer
  refine ⟨⟨.empty, root, hroot, .empty⟩, ?_, hvalue, hsupported, hinteroperable, hcompact,
    ?_⟩
  · simp [DocumentSpelling.text, htext, Json.render]
  · rw [← DocumentSpelling.fits_iff_isShallow, ← Json.fits_iff_isShallow]
    exact hfits 129

end JsonTemplate
