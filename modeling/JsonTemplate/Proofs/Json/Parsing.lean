import JsonTemplate.Proofs.Json.Scanning
import JsonTemplate.Proofs.Parser.Completeness

/-!
# The trees of JSON texts

The tokens of a supported JSON text are read as the tree that the text describes, unless the
text is nested too deeply; then they are refused for that reason and no other. Whether a part
fits is a matter of the levels that are left where it stands: a container and a negated number
need one, and what is inside a container has one less.

The lemmas about parts say both at once: what is read where a part fits, and how reading fails
where it does not.
-/

namespace JsonTemplate

/-- The digit of four bits is read as those bits. -/
theorem hexValue?_char (nibble : Nibble) : hexValue? nibble.char = some nibble.value.val := by
  obtain ⟨value, upper⟩ := nibble
  revert value upper
  decide

/-- No digit of four bits is a sign. -/
theorem char_ne_plus (nibble : Nibble) : nibble.char ≠ '+' := by
  obtain ⟨value, upper⟩ := nibble
  revert value upper
  decide

/-- Four hexadecimal digits spell the number that they have as digits. -/
theorem readHex?_nibbles (first second third fourth : Nibble) :
    readHex? [first.char, second.char, third.char, fourth.char] =
      some (StringUnit.number first second third fourth) := by
  rw [readHex?]
  · simp only [readHexAfter?, hexValue?_char, Option.bind_eq_bind, Option.bind_some,
      StringUnit.number, Nat.mul_zero, Nat.zero_add]
  · simp
  · simp
  · intro digits hcons
    exact char_ne_plus first (List.cons.inj hcons).1

/-- A number below 2 ^ 16 that is not half of a surrogate pair names a character. -/
theorem isValidChar_number {first second third fourth : Nibble}
    (h : (StringUnit.numbered first second third fourth).Supported) :
    (StringUnit.number first second third fourth).isValidChar := by
  have hfirst := first.value.isLt
  have hsecond := second.value.isLt
  have hthird := third.value.isLt
  have hfourth := fourth.value.isLt
  simp only [StringUnit.Supported, StringUnit.number] at h
  simp only [Nat.isValidChar, StringUnit.number]
  omega

/-- The letter of an escape is decoded, and starts no escape by number. -/
theorem simpleEscape?_of_mem {letter decoded : Char} (h : (letter, decoded) ∈ escapes) :
    simpleEscape? letter = some decoded ∧ letter ≠ 'u' := by
  simp only [escapes, List.mem_cons, Prod.mk.injEq, List.not_mem_nil, or_false] at h
  rcases h with ⟨rfl, rfl⟩ | ⟨rfl, rfl⟩ | ⟨rfl, rfl⟩ | ⟨rfl, rfl⟩ | ⟨rfl, rfl⟩ | ⟨rfl, rfl⟩ |
    ⟨rfl, rfl⟩ | ⟨rfl, rfl⟩ <;> decide

/-- Decoding takes one unit after the other. -/
theorem decode_text_append {unit : StringUnit} (h : unit.Supported) (rest : List Char) :
    decode (unit.text ++ rest) = unit.value :: decode rest := by
  cases unit with
  | plain c unescaped =>
    change decode (c :: rest) = c :: decode rest
    rw [decode]
    exact unescaped.2.2
  | escaped letter decoded escape =>
    obtain ⟨hdecoded, hletter⟩ := simpleEscape?_of_mem escape
    change decode ('\\' :: letter :: rest) = decoded :: decode rest
    rw [decode, decodeEscape]
    · simp only [hdecoded, List.cons_append, List.nil_append]
    · exact hletter
  | numbered first second third fourth =>
    change decode ('\\' :: 'u' :: first.char :: second.char :: third.char :: fourth.char :: rest) =
      _ :: decode rest
    rw [decode, decodeEscape]
    simp only [List.take_succ_cons, List.take_zero, List.drop_succ_cons, List.drop_zero,
      List.cons_append, List.nil_append, numberedChar, readHex?_nibbles,
      if_pos (isValidChar_number h), StringUnit.value]

/-- The raw text of a string is decoded to the string that it spells. -/
theorem decodeString_unitsText {units : List StringUnit} (h : ∀ unit ∈ units, unit.Supported) :
    decodeString (.ofList (unitsText units)) = unitsValue units := by
  rw [decodeString, String.toList_ofList, unitsValue]
  congr 1
  induction units with
  | nil => rw [unitsText, List.flatMap_nil, decode, List.map_nil]
  | cons unit units ih =>
    rw [unitsText, List.flatMap_cons, decode_text_append (h unit List.mem_cons_self),
      List.map_cons, ← unitsText, ih fun other hother => h other (List.mem_cons_of_mem _ hother)]

namespace NumberSpelling

/-- The tree of the unsigned number. -/
def magnitudeTree (number : NumberSpelling) : Node :=
  if number.numeral.isFloat then .float number.numeral.double
  else .integer (.ofInt (readDigits number.numeral.whole))

/-- The minus sign of a negated number is an operator, and that of the least integer is not. -/
def tree (number : NumberSpelling) : Node :=
  if number.negative then
    if number.numeral.isFloat ∨ readDigits number.numeral.whole ≠ 2 ^ 63 then
      .negate number.magnitudeTree
    else .integer Int64.minValue
  else number.magnitudeTree

/-- A number is negated by its sign unless it is the least integer. -/
theorem isNegated_iff (number : NumberSpelling) :
    number.IsNegated ↔ number.negative ∧
      (number.numeral.isFloat ∨ readDigits number.numeral.whole ≠ 2 ^ 63) := by
  refine and_congr_right fun hnegative => or_congr_right ?_
  rw [integer, if_pos hnegative]
  omega

end NumberSpelling

/-- The trees of parts. -/
abbrev Part.Tree : Part → Type
  | value => Node
  | items => List Node
  | members => List (String × Node)

namespace Spelling

/-- The tree that a part describes. -/
def tree : {part : Part} → Spelling part → part.Tree
  | _, null => Node.null
  | _, boolean value => Node.boolean value
  | _, number spelled => spelled.tree
  | _, string units => Node.string (unitsValue units)
  | _, emptyArray _ => Node.array []
  | _, array items => Node.array items.tree
  | _, emptyObject _ => Node.object []
  | _, object members => Node.object members.tree
  | _, lastItem _ value _ => [value.tree]
  | _, item _ value _ rest => (value.tree :: rest.tree : List Node)
  | _, lastMember _ name _ _ value _ => [(unitsValue name, value.tree)]
  | _, member _ name _ _ value _ rest =>
    ((unitsValue name, value.tree) :: rest.tree : List (String × Node))

/-- Whether a part fits into the levels that are left where it stands. -/
def Fits : {part : Part} → Spelling part → Nat → Prop
  | _, number spelled, levels => spelled.IsNegated → 0 < levels
  | _, emptyArray _, levels | _, emptyObject _, levels => 0 < levels
  | _, array items, levels => 0 < levels ∧ items.Fits (levels - 1)
  | _, object members, levels => 0 < levels ∧ members.Fits (levels - 1)
  | _, lastItem _ value _, levels => value.Fits levels
  | _, item _ value _ rest, levels => value.Fits levels ∧ rest.Fits levels
  | _, lastMember _ _ _ _ value _, levels => value.Fits levels
  | _, member _ _ _ _ value _ rest, levels => value.Fits levels ∧ rest.Fits levels
  | _, null, _ | _, boolean _, _ | _, string _, _ => True

/-- A part fits exactly if each of its containers and negated numbers stands at a level below
the number of levels left. -/
theorem fits_iff {part : Part} (spelling : Spelling part) (levels : Nat) :
    spelling.Fits levels ↔ ∀ level (inner : Spelling .value), inner.At level spelling →
      inner.IsNested → level < levels := by
  induction spelling generalizing levels with
  | null | boolean | string =>
    apply iff_of_true trivial
    intro level inner hat hnested
    cases hat
    exact hnested.elim
  | number | emptyArray | emptyObject =>
    constructor
    · intro hfits level inner hat hnested
      cases hat
      first | exact hfits | exact hfits hnested
    · intro hall
      first | exact hall 0 _ .here trivial | exact hall 0 _ .here
  | array _ ih =>
    constructor
    · intro hfits level inner hat hnested
      cases hat with
      | here => exact hfits.1
      | array hat =>
        have hlevel := (ih _).mp hfits.2 _ inner hat hnested
        omega
    · intro hall
      refine ⟨hall 0 _ .here trivial, (ih _).mpr fun level inner hat hnested => ?_⟩
      have hlevel := hall (level + 1) inner (.array hat) hnested
      omega
  | object _ ih =>
    constructor
    · intro hfits level inner hat hnested
      cases hat with
      | here => exact hfits.1
      | object hat =>
        have hlevel := (ih _).mp hfits.2 _ inner hat hnested
        omega
    · intro hall
      refine ⟨hall 0 _ .here trivial, (ih _).mpr fun level inner hat hnested => ?_⟩
      have hlevel := hall (level + 1) inner (.object hat) hnested
      omega
  | lastItem _ _ _ ih =>
    constructor
    · intro hfits level inner hat hnested
      cases hat with
      | lastItem hat => exact (ih _).mp hfits level inner hat hnested
    · intro hall
      exact (ih _).mpr fun level inner hat hnested => hall level inner (.lastItem hat) hnested
  | item _ _ _ _ ih ihRest =>
    constructor
    · intro hfits level inner hat hnested
      cases hat with
      | item hat => exact (ih _).mp hfits.1 level inner hat hnested
      | laterItem hat => exact (ihRest _).mp hfits.2 level inner hat hnested
    · intro hall
      constructor
      · exact (ih _).mpr fun level inner hat hnested => hall level inner (.item hat) hnested
      · exact (ihRest _).mpr fun level inner hat hnested =>
          hall level inner (.laterItem hat) hnested
  | lastMember _ _ _ _ _ _ ih =>
    constructor
    · intro hfits level inner hat hnested
      cases hat with
      | lastMember hat => exact (ih _).mp hfits level inner hat hnested
    · intro hall
      exact (ih _).mpr fun level inner hat hnested => hall level inner (.lastMember hat) hnested
  | member _ _ _ _ _ _ _ ih ihRest =>
    constructor
    · intro hfits level inner hat hnested
      cases hat with
      | member hat => exact (ih _).mp hfits.1 level inner hat hnested
      | laterMember hat => exact (ihRest _).mp hfits.2 level inner hat hnested
    · intro hall
      constructor
      · exact (ih _).mpr fun level inner hat hnested => hall level inner (.member hat) hnested
      · exact (ihRest _).mpr fun level inner hat hnested =>
          hall level inner (.laterMember hat) hnested

/-- The first token of a value is no separator, no closing bracket and no arrow. -/
theorem exists_tokenKinds_eq_cons (spelling : Spelling .value) :
    ∃ first more, spelling.tokenKinds = first :: more ∧ first ≠ .symbol .comma ∧
      first ≠ .symbol .rightBracket ∧ first ≠ .symbol .arrow := by
  cases spelling with
  | boolean value => cases value <;> exact ⟨_, _, rfl, by simp⟩
  | number spelled =>
    rw [tokenKinds, NumberSpelling.tokenKinds, NumberSpelling.magnitudeKind]
    split
    · exact ⟨_, _, rfl, by simp⟩
    · split <;> exact ⟨_, _, rfl, by simp⟩
  | null | string | emptyArray | array | emptyObject | object =>
    exact ⟨_, _, rfl, by simp [unitsKind]⟩

end Spelling

section

variable {α : Type} {bound : Nat}

/-- Reads a tree and leaves tokens of the given kinds where something fits, and is refused for
its depth where it does not. -/
def ReadsWhere (fits : Prop) (tree : α) (left : List TokenKind) (reading : Reading α bound) :
    Prop :=
  Settles (fun value rest => Leaves tree left value rest ∧ fits)
    (fun failure => failure.fault = .tooDeep ∧ ¬fits) reading

end

open Grammar

variable {levels : Nat} {left : List TokenKind} {input : List Token}

/-- A value that does not start with an arrow is an expression. -/
theorem valueAt_of_ne_arrow {token : Token} {rest : List Token}
    (h : token.kind ≠ .symbol .arrow) :
    valueAt levels (token :: rest) = expressionAt levels (token :: rest) :=
  if_neg h

/-- An operand that does not start with a minus sign has no signs. -/
theorem unary_of_ne_minus {token : Token} {rest : List Token}
    (h : token.kind ≠ .symbol .minus) :
    (Rules.nested levels).unary (token :: rest) =
      primary (Rules.inside levels) (token :: rest) := by
  rw [Rules.nested_eq_level]
  obtain ⟨kind, span⟩ := token
  cases kind with
  | symbol sign => cases sign <;> first | rfl | exact absurd rfl h
  | identifier | integer | float | string | keyword | endOfInput => rfl

/-- Only the magnitude of the least integer makes one literal with a minus sign. -/
theorem unary_of_minus {token : Token} {span : Span} {rest : List Token}
    (h : token.kind ≠ .integer (2 ^ 63)) :
    (Rules.nested levels).unary (⟨.symbol .minus, span⟩ :: token :: rest) =
      negated (Rules.inside levels) (token :: rest) := by
  rw [Rules.nested_eq_level]
  obtain ⟨kind, span'⟩ := token
  cases kind with
  | integer magnitude => exact if_neg fun hmagnitude => h (congrArg TokenKind.integer hmagnitude)
  | identifier | float | string | keyword | symbol | endOfInput => rfl

/-- A literal that no operator follows is a value. -/
theorem ReadsWhere.value {fits : Prop} {tree : Node} {token : Token} {rest : List Token}
    (h : ReadsWhere fits tree left ((Rules.nested levels).unary (token :: rest)))
    (hstop : NotBefore IsOperator left) (harrow : token.kind ≠ .symbol .arrow) :
    ReadsWhere fits tree left (valueAt levels (token :: rest)) := by
  rw [valueAt_of_ne_arrow harrow]
  apply settles_binary_of_stop h
  intro value rest hp
  rw [hp.1.2]
  exact hstop.mono fun kind => isOperator_of_bindsTightly

/-- The unsigned number is read where it is the magnitude of an integer or a double. -/
theorem primary_magnitude {inner : Option Rules} {number : NumberSpelling} {span : Span}
    {rest : List Token} (h : ¬number.numeral.isFloat → readDigits number.numeral.whole < 2 ^ 63) :
    Accepts (Leaves number.magnitudeTree (kinds rest))
      (primary inner (⟨number.magnitudeKind, span⟩ :: rest)) := by
  rw [NumberSpelling.magnitudeTree, NumberSpelling.magnitudeKind]
  by_cases hfloat : number.numeral.isFloat
  · rw [if_pos hfloat, if_pos hfloat]
    exact ⟨rfl, rfl⟩
  · rw [if_neg hfloat, if_neg hfloat]
    have hvalue := integer?_natCast_eq_some_iff.mpr ⟨h hfloat, rfl⟩
    simp only [primary, hvalue]
    exact ⟨rfl, rfl⟩

/-- The magnitude of a number is no minus sign. -/
theorem magnitudeKind_ne_minus (number : NumberSpelling) :
    number.magnitudeKind ≠ .symbol .minus := by
  rw [NumberSpelling.magnitudeKind]
  split <;> simp

/-- A number is read as its tree, unless its minus sign has no level to go down. -/
theorem readsWhere_number {number : NumberSpelling} (h : number.Supported)
    (hinput : kinds input = number.tokenKinds ++ left) :
    ReadsWhere (number.IsNegated → 0 < levels) number.tree left
      ((Rules.nested levels).unary input) := by
  have hle := fun hfloat => NumberSpelling.readDigits_le h hfloat
  rw [NumberSpelling.isNegated_iff]
  by_cases hnegative : number.negative
  · rw [NumberSpelling.tokenKinds, if_pos hnegative] at hinput
    obtain ⟨span, _, rfl, hmagnitude⟩ := kinds_eq_cons_iff.mp hinput
    obtain ⟨span', rest, rfl, rfl⟩ := kinds_eq_cons_iff.mp hmagnitude
    rw [NumberSpelling.tree, if_pos hnegative]
    by_cases hnegated : number.numeral.isFloat ∨ readDigits number.numeral.whole ≠ 2 ^ 63
    · have hlt : ¬number.numeral.isFloat → readDigits number.numeral.whole < 2 ^ 63 :=
        fun hfloat => Nat.lt_of_le_of_ne (hle hfloat) (hnegated.resolve_left hfloat)
      rw [if_pos hnegated, unary_of_minus]
      · cases levels with
        | zero => exact ⟨rfl, fun hfits => absurd (hfits ⟨hnegative, hnegated⟩) (lt_irrefl 0)⟩
        | succ fewer =>
          have hoperand : Accepts (Leaves number.magnitudeTree (kinds rest))
              ((Rules.nested fewer).unary (⟨number.magnitudeKind, span'⟩ :: rest)) := by
            rw [unary_of_ne_minus (magnitudeKind_ne_minus number)]
            exact primary_magnitude hlt
          exact (hoperand.mono (fun _ _ => id) (fun _ => False.elim)).map fun _ hp =>
            ⟨⟨congrArg _ hp.1, hp.2⟩, fun _ => Nat.succ_pos fewer⟩
      · rw [NumberSpelling.magnitudeKind]
        split
        · simp
        · rename_i hfloat
          simpa using hnegated.resolve_left hfloat
    · obtain ⟨hfloat, hleast⟩ := not_or.mp hnegated
      rw [not_not] at hleast
      rw [if_neg hnegated, NumberSpelling.magnitudeKind, if_neg hfloat, hleast,
        Rules.nested_eq_level]
      exact ⟨⟨rfl, rfl⟩, fun hfits => absurd rfl (hfits.2.resolve_left hfloat)⟩
  · rw [NumberSpelling.tokenKinds, if_neg hnegative] at hinput
    obtain ⟨span, rest, rfl, rfl⟩ := kinds_eq_cons_iff.mp hinput
    rw [NumberSpelling.tree, if_neg hnegative,
      unary_of_ne_minus (magnitudeKind_ne_minus number)]
    refine (primary_magnitude fun hfloat => ?_).mono
      (fun _ _ hp => ⟨hp, fun hnegated => absurd hnegated.1 hnegative⟩) (fun _ => False.elim)
    rw [NumberSpelling.Supported, if_neg hfloat, NumberSpelling.integer, if_neg hnegative] at h
    omega

namespace Spelling

/-- A part is read as its tree where it fits, with the closing bracket or brace that ends items
and members. -/
def IsRead : {part : Part} → Spelling part → Prop
  | .value, value => ∀ levels left input, NotBefore IsOperator left →
      kinds input = value.tokenKinds ++ left →
      ReadsWhere (value.Fits levels) (value.tree : Node) left (valueAt levels input)
  | .items, items => ∀ levels left input,
      kinds input = items.tokenKinds ++ .symbol .rightBracket :: left →
      ReadsWhere (items.Fits levels) (items.tree : List Node) left
        (elements (valueAt levels) input)
  | .members, members => ∀ levels left input,
      kinds input = members.tokenKinds ++ .symbol .rightBrace :: left →
      ReadsWhere (members.Fits levels) (members.tree : List (String × Node)) left
        (Grammar.members (valueAt levels) input)

/-- What is read one level down fits if there is a level and it fits inside. -/
theorem readsWhere_descend {fits : Prop} {tree : Node} {bound : Nat}
    {rule : Rules → Reading Node bound}
    (h : ∀ fewer, levels = fewer + 1 → ReadsWhere fits tree left (rule (Rules.nested fewer))) :
    ReadsWhere (0 < levels ∧ fits) tree left (descend (Rules.inside levels) input rule) := by
  cases levels with
  | zero => exact ⟨rfl, fun hfits => lt_irrefl 0 hfits.1⟩
  | succ fewer =>
    exact (h fewer rfl).mono (fun _ _ hp => ⟨hp.1, Nat.succ_pos fewer, hp.2⟩)
      fun _ hp => ⟨hp.1, fun hfits => hp.2 hfits.2⟩

/-- The empty array is read where a level is left for it. -/
theorem readsWhere_emptyArray {inside : Whitespace}
    (hinput : kinds input = (emptyArray inside).tokenKinds ++ left) :
    ReadsWhere ((emptyArray inside).Fits levels) (Node.array []) left
      (primary (Rules.inside levels) input) := by
  obtain ⟨_, _, rfl, hclose⟩ := kinds_eq_cons_iff.mp hinput
  rw [Fits, ← and_true (0 < levels)]
  apply readsWhere_descend
  intro fewer _
  have hread : ReadsWhere True (Node.array []) left ((Rules.nested fewer).array _) :=
    settles_array.mpr (settles_elements_close hclose fun rest hrest => ⟨⟨rfl, hrest⟩, trivial⟩)
  exact hread.map fun _ hp => hp

/-- An array is read where its items are, one level further down. -/
theorem readsWhere_array {items : Spelling .items} (h : items.IsRead)
    (hinput : kinds input = (array items).tokenKinds ++ left) :
    ReadsWhere ((array items).Fits levels) (Node.array items.tree) left
      (primary (Rules.inside levels) input) := by
  rw [tokenKinds, List.cons_append, List.cons_append, List.append_assoc] at hinput
  obtain ⟨_, rest, rfl, hrest⟩ := kinds_eq_cons_iff.mp hinput
  rw [Fits]
  apply readsWhere_descend
  intro fewer hlevels
  obtain rfl : levels = fewer + 1 := hlevels
  have hread : ReadsWhere (items.Fits fewer) (Node.array items.tree) left
      ((Rules.nested fewer).array rest) :=
    settles_array.mpr ((h fewer left rest hrest).mono
      (fun trees after hp => ⟨⟨congrArg Node.array hp.1.1, hp.1.2⟩, hp.2⟩) fun _ => id)
  exact hread.map fun _ hp => hp

/-- The empty object is read where a level is left for it. -/
theorem readsWhere_emptyObject {inside : Whitespace}
    (hinput : kinds input = (emptyObject inside).tokenKinds ++ left) :
    ReadsWhere ((emptyObject inside).Fits levels) (Node.object []) left
      (primary (Rules.inside levels) input) := by
  obtain ⟨_, _, rfl, hclose⟩ := kinds_eq_cons_iff.mp hinput
  rw [Fits, ← and_true (0 < levels)]
  apply readsWhere_descend
  intro fewer _
  have hread : ReadsWhere True (Node.object []) left ((Rules.nested fewer).object _) :=
    settles_object.mpr (settles_members_close hclose fun rest hrest => ⟨⟨rfl, hrest⟩, trivial⟩)
  exact hread.map fun _ hp => hp

/-- An object is read where its members are, one level further down. -/
theorem readsWhere_object {members : Spelling .members} (h : members.IsRead)
    (hinput : kinds input = (object members).tokenKinds ++ left) :
    ReadsWhere ((object members).Fits levels) (Node.object members.tree) left
      (primary (Rules.inside levels) input) := by
  rw [tokenKinds, List.cons_append, List.cons_append, List.append_assoc] at hinput
  obtain ⟨_, rest, rfl, hrest⟩ := kinds_eq_cons_iff.mp hinput
  rw [Fits]
  apply readsWhere_descend
  intro fewer hlevels
  obtain rfl : levels = fewer + 1 := hlevels
  have hread : ReadsWhere (members.Fits fewer) (Node.object members.tree) left
      ((Rules.nested fewer).object rest) :=
    settles_object.mpr ((h fewer left rest hrest).mono
      (fun trees after hp => ⟨⟨congrArg Node.object hp.1.1, hp.1.2⟩, hp.2⟩) fun _ => id)
  exact hread.map fun _ hp => hp

/-- A literal without a sign is read as a value if it is read as an operand. -/
theorem isRead_of_primary {value : Spelling .value} {first : TokenKind} {more : List TokenKind}
    (hfirst : value.tokenKinds = first :: more) (hminus : first ≠ .symbol .minus)
    (h : ∀ levels left input, kinds input = value.tokenKinds ++ left →
      ReadsWhere (value.Fits levels) (value.tree : Node) left
        (primary (Rules.inside levels) input)) : value.IsRead := by
  intro levels left input hstop hinput
  obtain ⟨_, _, hcons, -, -, harrow⟩ := exists_tokenKinds_eq_cons value
  obtain ⟨rfl, rfl⟩ := List.cons.inj (hfirst.symm.trans hcons)
  have hread := h levels left input hinput
  rw [hfirst, List.cons_append] at hinput
  obtain ⟨span, rest, rfl, -⟩ := kinds_eq_cons_iff.mp hinput
  refine ReadsWhere.value ?_ hstop harrow
  rwa [unary_of_ne_minus hminus]

/-- A word or a string is an operand by itself. -/
theorem isRead_of_leaf {value : Spelling .value} {kind : TokenKind}
    (hkinds : value.tokenKinds = [kind]) (hminus : kind ≠ .symbol .minus)
    (hfits : ∀ levels, value.Fits levels)
    (h : ∀ inner span rest, primary inner (⟨kind, span⟩ :: rest) =
      .ok ⟨value.tree, rest, Nat.lt_succ_self _⟩) : value.IsRead := by
  apply isRead_of_primary hkinds hminus
  intro levels left input hinput
  rw [hkinds] at hinput
  obtain ⟨span, rest, rfl, hrest⟩ := kinds_eq_cons_iff.mp hinput
  rw [h]
  exact ⟨⟨rfl, hrest⟩, hfits levels⟩

/-- An item is read first, whatever follows it. -/
theorem settles_elements_item {P : List Node → List Token → Prop} {E : Failure → Prop}
    {value : Spelling .value} (hinput : kinds input = value.tokenKinds ++ left)
    (h : Settles (fun tree after => Settles (fun more rest => P (tree :: more) rest) E
      (elements (valueAt levels) after)) E (valueAt levels input)) :
    Settles P E (elements (valueAt levels) input) := by
  obtain ⟨first, more, hfirst, hcomma, hbracket, -⟩ := exists_tokenKinds_eq_cons value
  rw [hfirst, List.cons_append] at hinput
  obtain ⟨span, rest, rfl, -⟩ := kinds_eq_cons_iff.mp hinput
  exact settles_elements_element hcomma hbracket h

/-- A member is named with what its name is spelled as. -/
theorem settles_members_name {P : List (String × Node) → List Token → Prop}
    {E : Failure → Prop} {name : List StringUnit} (hname : ∀ unit ∈ name, unit.Supported)
    (hinput : kinds input = unitsKind name :: .symbol .colon :: left)
    (h : ∀ rest, kinds rest = left → Settles (fun tree after => Settles
      (fun more rest => P ((unitsValue name, tree) :: more) rest) E
        (Grammar.members (valueAt levels) after)) E (valueAt levels rest)) :
    Settles P E (Grammar.members (valueAt levels) input) := by
  apply settles_members_member hinput
  rwa [decodeString_unitsText hname]

/-- What is no operator continues no expression. -/
theorem notBefore_isOperator {kind : TokenKind} {rest : List TokenKind}
    (h : operator? kind = none) : NotBefore IsOperator (kind :: rest) :=
  notBefore_cons.mpr (not_isOperator_of_operator? h)

/-- A supported part is read as its tree where it fits. -/
theorem isRead {part : Part} (spelling : Spelling part) (h : spelling.Supported) :
    spelling.IsRead := by
  induction spelling with
  | null => exact isRead_of_leaf rfl (by simp) (fun _ => trivial) fun _ _ _ => rfl
  | boolean value =>
    cases value with
    | true => exact isRead_of_leaf rfl (by simp) (fun _ => trivial) fun _ _ _ => rfl
    | false => exact isRead_of_leaf rfl (by simp) (fun _ => trivial) fun _ _ _ => rfl
  | number spelled =>
    intro levels left input hstop hinput
    have hread : ReadsWhere _ _ left ((Rules.nested levels).unary input) :=
      readsWhere_number h hinput
    obtain ⟨_, _, hcons, -, -, harrow⟩ := exists_tokenKinds_eq_cons (number spelled)
    rw [hcons, List.cons_append] at hinput
    obtain ⟨span, rest, rfl, -⟩ := kinds_eq_cons_iff.mp hinput
    exact ReadsWhere.value hread hstop harrow
  | string units =>
    refine isRead_of_leaf rfl (by simp [unitsKind]) (fun _ => trivial) fun inner span rest => ?_
    have hdecode := decodeString_unitsText h
    simp only [unitsKind, primary, leaf?, hdecode, tree]
  | emptyArray inside =>
    exact isRead_of_primary rfl (by simp) fun _ _ _ hinput => readsWhere_emptyArray hinput
  | array items ih =>
    exact isRead_of_primary rfl (by simp) fun _ _ _ hinput => readsWhere_array (ih h) hinput
  | emptyObject inside =>
    exact isRead_of_primary rfl (by simp) fun _ _ _ hinput => readsWhere_emptyObject hinput
  | object members ih =>
    exact isRead_of_primary rfl (by simp) fun _ _ _ hinput => readsWhere_object (ih h) hinput
  | lastItem before value after ih =>
    intro levels left input hinput
    have hvalue := ih h levels _ input (notBefore_isOperator rfl) hinput
    refine settles_elements_item hinput (hvalue.mono (fun tree rest hp => ?_) fun _ => id)
    apply settles_elements_close hp.1.2
    intro after hafter
    exact ⟨⟨by rw [hp.1.1]; rfl, hafter⟩, hp.2⟩
  | item before value after rest ih ihRest =>
    intro levels left input hinput
    rw [tokenKinds, List.append_assoc, List.cons_append] at hinput
    have hvalue := ih h.1 levels _ input (notBefore_isOperator rfl) hinput
    refine settles_elements_item hinput (hvalue.mono (fun tree remaining hp => ?_)
      fun failure hp => ⟨hp.1, fun hfits => hp.2 hfits.1⟩)
    apply settles_elements_comma hp.1.2
    intro input hinput
    refine (ihRest h.2 levels left input hinput).mono (fun more left hmore => ?_)
      fun failure hfail => ⟨hfail.1, fun hfits => hfail.2 hfits.2⟩
    exact ⟨⟨by rw [hp.1.1, hmore.1.1]; rfl, hmore.1.2⟩, hp.2, hmore.2⟩
  | lastMember before name beforeColon afterColon value after ih =>
    intro levels left input hinput
    apply settles_members_name h.1 hinput
    intro input hinput
    have hvalue := ih h.2 levels _ input (notBefore_isOperator rfl) hinput
    refine hvalue.mono (fun tree rest hp => ?_) fun _ => id
    apply settles_members_close hp.1.2
    intro after hafter
    exact ⟨⟨by rw [hp.1.1]; rfl, hafter⟩, hp.2⟩
  | member before name beforeColon afterColon value after rest ih ihRest =>
    intro levels left input hinput
    rw [tokenKinds] at hinput
    simp only [List.cons_append, List.append_assoc] at hinput
    apply settles_members_name h.1 hinput
    intro input hinput
    have hvalue := ih h.2.1 levels _ input (notBefore_isOperator rfl) hinput
    refine hvalue.mono (fun tree remaining hp => ?_)
      fun failure hp => ⟨hp.1, fun hfits => hp.2 hfits.1⟩
    apply settles_members_comma hp.1.2
    intro input hinput
    refine (ihRest h.2.2 levels left input hinput).mono (fun more left hmore => ?_)
      fun failure hfail => ⟨hfail.1, fun hfits => hfail.2 hfits.2⟩
    exact ⟨⟨by rw [hp.1.1, hmore.1.1]; rfl, hmore.1.2⟩, hp.2, hmore.2⟩

end Spelling

/-- The root is read like a container inside which one level less is left. -/
theorem root_eq_primary {token : Token} {rest : List Token}
    (h : token.kind = .symbol .leftBracket ∨ token.kind = .symbol .leftBrace) :
    root (token :: rest) = primary (Rules.inside 129) (token :: rest) := by
  obtain ⟨kind, span⟩ := token
  rcases h with hkind | hkind
  all_goals
    obtain rfl : kind = _ := hkind
    rfl

/-- An array or object starts with its opening sign. -/
theorem exists_tokenKinds_of_container {value : Spelling .value} (h : value.IsContainer) :
    ∃ first more, value.tokenKinds = first :: more ∧
      (first = .symbol .leftBracket ∨ first = .symbol .leftBrace) := by
  cases value with
  | emptyArray | array => exact ⟨_, _, rfl, Or.inl rfl⟩
  | emptyObject | object => exact ⟨_, _, rfl, Or.inr rfl⟩
  | null | boolean | number | string => exact h.elim

/-- A document is read where its nesting fits the limit. -/
theorem readsWhere_root {value : Spelling .value} (hcontainer : value.IsContainer)
    (h : value.Supported) (hinput : kinds input = value.tokenKinds) :
    ReadsWhere (value.Fits 129) value.tree [] (root input) := by
  obtain ⟨first, more, hfirst, hbracket⟩ := exists_tokenKinds_of_container hcontainer
  obtain ⟨span, rest, rfl, -⟩ := kinds_eq_cons_iff.mp (hinput.trans hfirst)
  rw [root_eq_primary hbracket]
  rw [← List.append_nil value.tokenKinds] at hinput
  cases value with
  | emptyArray inside => exact Spelling.readsWhere_emptyArray hinput
  | array items => exact Spelling.readsWhere_array (items.isRead h) hinput
  | emptyObject inside => exact Spelling.readsWhere_emptyObject hinput
  | object members => exact Spelling.readsWhere_object (members.isRead h) hinput
  | null | boolean | number | string => exact hcontainer.elim

/-- A document is read as the tree of its root, or refused for its depth. -/
theorem parse_of_container {tokens : List Token} {value : Spelling .value}
    (hcontainer : value.IsContainer) (h : value.Supported)
    (htokens : kinds (beforeEnd tokens) = value.tokenKinds) :
    (value.Fits 129 → parse tokens = .ok value.tree) ∧
      (¬value.Fits 129 → ∃ error, parse tokens = .error error ∧ error.fault = .tooDeep) := by
  have hroot := readsWhere_root hcontainer h htokens
  cases hread : root (beforeEnd tokens) with
  | error failure =>
    rw [hread] at hroot
    refine ⟨fun hfits => absurd hfits hroot.2, fun _ => ?_⟩
    refine ⟨failure.toError (endPosition tokens), ?_, ?_⟩
    · simp only [parse, document, hread, bind, Except.bind]
    · rw [← hroot.1, Failure.toError]
      split <;> rfl
  | ok parsed =>
    rw [hread] at hroot
    refine ⟨fun _ => ?_, fun hfits => absurd hroot.2 hfits⟩
    obtain ⟨⟨htree, hrest⟩, -⟩ := hroot
    rw [parse_eq_ok_iff_document]
    simp only [document, hread, bind, Except.bind, List.map_eq_nil_iff.mp hrest, htree]
    rfl

end JsonTemplate
