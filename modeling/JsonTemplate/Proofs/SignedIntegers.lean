import JsonTemplate.Compile
import JsonTemplate.Proofs.Json.Building
import JsonTemplate.Proofs.Parser.SignChains
import JsonTemplate.Proofs.Scanner.LocatedFaults

/-!
# Integers with signs

The range of integers is looked at in three places: the scanner refuses magnitudes beyond the
greatest one, the parser refuses that one without a sign, and negation refuses the integer that has
no opposite. Together they leave exactly the 64-bit integers, however many minus signs and leading
zeros there are, and whatever blanks stand between. A chain of signs is limited only by the levels
that may be nested, of which the sign of the least integer takes none.
-/

namespace JsonTemplate

/-- Digits with any number of minus signs as the only element of an array, with blanks after the
opening bracket, after each sign, and before the closing bracket. -/
structure SignedNumeral where
  opening : Whitespace
  signs : List Whitespace
  digits : List Char
  closing : Whitespace
  digits_ne_nil : digits ≠ []
  all_digits : AllDigits digits

namespace SignedNumeral

/-- Minus signs with the blanks after each. -/
def signsText (signs : List Whitespace) : List Char := signs.flatMap fun gap => '-' :: gap.text

/-- What stands before the digits. -/
def front (numeral : SignedNumeral) : List Char :=
  '[' :: (numeral.opening.text ++ signsText numeral.signs)

/-- What stands behind the digits. -/
def back (numeral : SignedNumeral) : List Char := numeral.closing.text ++ [']']

/-- The text of a template with the numeral in it. -/
def source (numeral : SignedNumeral) : String :=
  .ofList (numeral.front ++ (numeral.digits ++ numeral.back))

/-- The number that the digits spell, without its signs. -/
def magnitude (numeral : SignedNumeral) : Nat := readDigits numeral.digits

/-- The number that is spelled, with all signs. -/
def value (numeral : SignedNumeral) : Int := (-1) ^ numeral.signs.length * numeral.magnitude

/-- No character of blanks and signs is the second one of an arrow. -/
theorem ne_of_mem_signsText {signs : List Whitespace} {c : Char} (h : c ∈ signsText signs) :
    c ≠ '>' := by
  rintro rfl
  obtain ⟨gap, -, hgap⟩ := List.mem_flatMap.mp h
  rcases List.mem_cons.mp hgap with hsign | hblank
  · cases hsign
  · cases gap.all_isSpace _ hblank

/-- Blanks and minus signs are scanned as so many signs, with blanks left at the end. -/
theorem exists_lexemesBefore_signs {rest : List Char} (hrest : NotBefore (· = '>') rest)
    (signs : List Whitespace) (gap : Whitespace) (offset : Nat) :
    ∃ (front : List Char) (last : Whitespace) (tokens : List Token),
      gap.text ++ signsText signs = front ++ last.text ∧
      LexemesBefore (last.text ++ rest) offset front tokens ∧
      kinds tokens = List.replicate signs.length (.symbol .minus) := by
  induction signs generalizing gap offset with
  | nil => exact ⟨[], gap, [], List.append_nil _, .none, rfl⟩
  | cons next signs ih =>
    obtain ⟨front, last, tokens, hsplit, hlexemes, hkinds⟩ :=
      ih next (offset + byteLength gap.text + byteLength ['-'])
    -- Blanks, another sign or the rest comes next, none of which makes the sign an arrow.
    have hlongest : LongestLexeme (.symbol .minus) ['-'] (front ++ (last.text ++ rest)) := by
      refine ⟨.symbol .minus, ?_⟩
      rw [← List.append_assoc, ← hsplit, List.append_assoc]
      refine .append_left (fun c hc => ?_) (.append_left (fun c hc => ?_) hrest)
      · rintro rfl
        cases next.all_isSpace _ hc
      · exact ne_of_mem_signsText hc
    refine ⟨gap.text ++ ['-'] ++ front, last, _, ?_,
      .lexeme gap.all_isSpace hlongest rfl rfl hlexemes, ?_⟩
    · rw [List.append_assoc, ← hsplit]
      simp [signsText]
    · rw [kinds_cons, hkinds]
      rfl

variable (numeral : SignedNumeral)

/-- There is a first digit. -/
theorem exists_digits_eq_cons : ∃ first more, numeral.digits = first :: more ∧ first.isDigit := by
  obtain ⟨first, more, hdigits⟩ := List.exists_cons_of_ne_nil numeral.digits_ne_nil
  exact ⟨first, more, hdigits, numeral.all_digits first (by simp [hdigits])⟩

/-- What stands before the digits is scanned as the bracket and the signs. -/
theorem exists_lexemesBefore_front :
    ∃ (front : List Char) (last : Whitespace) (tokens : List Token),
    numeral.front = front ++ last.text ∧
    LexemesBefore (last.text ++ (numeral.digits ++ numeral.back)) 0 front tokens ∧
    kinds tokens =
      .symbol .leftBracket :: List.replicate numeral.signs.length (.symbol .minus) := by
  obtain ⟨first, more, hdigits, hfirst⟩ := numeral.exists_digits_eq_cons
  have hrest : NotBefore (· = '>') (numeral.digits ++ numeral.back) := by
    rw [hdigits]
    exact notBefore_cons.mpr (ne_of_isDigit hfirst (by decide))
  obtain ⟨front, last, tokens, hsplit, hlexemes, hkinds⟩ :=
    exists_lexemesBefore_signs hrest numeral.signs numeral.opening (byteLength ['['])
  have hbracket : LongestLexeme (.symbol .leftBracket) ['[']
      (front ++ (last.text ++ (numeral.digits ++ numeral.back))) :=
    ⟨.symbol .leftBracket, fun _ _ => id⟩
  have hblank : ∀ c ∈ ([] : List Char), isSpace c := fun c hc => absurd hc List.not_mem_nil
  refine ⟨[] ++ ['['] ++ front, last, _, ?_,
    .lexeme hblank hbracket rfl (Nat.zero_add _).symm hlexemes, ?_⟩
  · rw [SignedNumeral.front, hsplit]
    rfl
  · rw [kinds_cons, hkinds]

/-- What follows the digits does not go on with them. -/
theorem notBefore_extends_back : NotBefore Extends numeral.back :=
  notBefore_extends_blank (notBefore_cons.mpr (by simp [Extends, isWordChar]))

/-- What stands behind the digits does not continue them. -/
theorem notBefore_continuedBy_back :
    NotBefore (Numeral.ContinuedBy ⟨numeral.digits, none, none⟩) numeral.back := by
  refine numeral.notBefore_extends_back.mono fun c hc => ?_
  rcases hc with hdigit | ⟨-, rfl | rfl | ⟨-, rfl⟩⟩
  · exact .inl (isWordChar_of_isDigit hdigit)
  · exact .inl (by decide)
  · exact .inl (by decide)
  · exact .inr rfl

/-- The digits alone are a well-formed numeral. -/
theorem wellFormed_digits : Numeral.WellFormed ⟨numeral.digits, none, none⟩ where
  whole := numeral.all_digits
  whole_ne_nil := numeral.digits_ne_nil
  fraction := nofun
  exponent := nofun

/-- The text of the digits as a numeral is the digits. -/
theorem text_digits : Numeral.text ⟨numeral.digits, none, none⟩ = numeral.digits :=
  NumberSpelling.text_eq_whole (by simp [Numeral.isFloat])

variable {numeral}

/-- A magnitude beyond that of the least integer is no lexeme. -/
theorem tokenize_eq_error (h : 2 ^ 63 < numeral.magnitude) : tokenize numeral.source =
    .error ⟨.invalidInteger numeral.digits, byteLength numeral.front⟩ := by
  obtain ⟨front, last, tokens, hsplit, hlexemes, -⟩ := numeral.exists_lexemesBefore_front
  obtain ⟨first, more, hdigits, hfirst⟩ := numeral.exists_digits_eq_cons
  have htext : numeral.digits ++ numeral.back = first :: (more ++ numeral.back) := by
    rw [hdigits, List.cons_append]
  have hread :=
    Numeral.read_text_append numeral.wellFormed_digits numeral.notBefore_continuedBy_back
  have hkind : Numeral.kind? ⟨numeral.digits, none, none⟩ = none := by
    rw [Numeral.kind?, if_neg (by simp [Numeral.isFloat])]
    exact if_neg (Nat.not_le_of_lt h)
  have hcut : Scanner.Cut numeral.source ⟨.invalidInteger numeral.digits, byteLength numeral.front⟩
      tokens front last.text first (more ++ numeral.back) 0 := {
    source_eq := by rw [source, String.toList_ofList, hsplit, List.append_assoc, htext]
    lexemes := htext ▸ hlexemes
    blanks := last.all_isSpace
    notBlank := not_isSpace_of_isDigit hfirst
    outcome := by
      rw [Lexeme.read_digit hfirst, ← htext, Lexeme.readNumeral]
      rw [numeral.text_digits] at hread
      simp only [hread, hkind, numeral.text_digits]
      rfl
    position_eq := by rw [hsplit, Nat.add_zero] }
  exact hcut.tokenize_eq_error

/-- Any other magnitude is a token between those of the signs and of the closing bracket. -/
theorem exists_tokenize (h : numeral.magnitude ≤ 2 ^ 63) : ∃ tokens,
    tokenize numeral.source = .ok tokens ∧ kinds (beforeEnd tokens) = .symbol .leftBracket ::
      (List.replicate numeral.signs.length (.symbol .minus) ++
        [.integer numeral.magnitude, .symbol .rightBracket]) := by
  obtain ⟨front, last, tokens, hsplit, hlexemes, hkinds⟩ := numeral.exists_lexemesBefore_front
  have hlongest : LongestLexeme (.integer numeral.magnitude) numeral.digits numeral.back := by
    refine ⟨.integer numeral.digits_ne_nil numeral.all_digits h, ?_⟩
    refine numeral.notBefore_continuedBy_back.mono fun c hc => ?_
    rw [← Numeral.continues_iff numeral.wellFormed_digits (Numeral.kind?_of_integer h),
      numeral.text_digits]
    exact hc
  have hback : Tiles [.symbol .rightBracket] numeral.back :=
    ((tiles_blank ⟨[], by simp⟩).sign .rightBracket ']' rfl fun _ _ => id).blank numeral.closing
  obtain ⟨more, hmore, hmorekinds⟩ := ((hback.lexeme hlongest).blank last) (0 + byteLength front)
  have htiling : Tiling 0 numeral.source.toList (tokens ++ more) := by
    rw [source, String.toList_ofList, hsplit, List.append_assoc]
    exact hlexemes.tiling_append hmore
  refine ⟨_, Scanner.tokens_of_tiling htiling false, ?_⟩
  rw [beforeEnd_of_tiling htiling, kinds, List.map_append, ← kinds, ← kinds, hkinds, hmorekinds]
  rfl

end SignedNumeral

/-- A value with its sign changed a number of times. -/
def Value.negated (value : Value) : Nat → Except EvalError Value
  | 0 => .ok value
  | count + 1 => value.negated count >>= neg

/-- Signs make no difference to the magnitude. -/
theorem natAbs_signed (count : Nat) (n : Int) : ((-1) ^ count * n).natAbs = n.natAbs := by
  rw [Int.natAbs_mul, Int.natAbs_pow, Int.natAbs_neg, Int.natAbs_one, Nat.one_pow, Nat.one_mul]

/-- The opposite of an integer is exact as long as its magnitude is that of an integer. -/
theorem Value.negated_integer {n : Int} (h : n.natAbs < 2 ^ 63) (count : Nat) :
    (integer (.ofInt n)).negated count = .ok (.integer (.ofInt ((-1) ^ count * n))) := by
  induction count with
  | zero => rw [negated, Int.pow_zero, Int.one_mul]
  | succ count ih =>
    have hmagnitude : ((-1) ^ count * n).natAbs < 2 ^ 63 := by
      rwa [natAbs_signed]
    have hexact := Int64.toInt_ofInt_of_le (n := (-1) ^ count * n) (by omega) (by omega)
    rw [negated, ih]
    change ofWhole .sub (-(Int64.ofInt ((-1) ^ count * n)).toInt) = _
    rw [hexact, ofWhole, NumberSpelling.integer?_of_bounds (by omega) (by omega), Int.pow_succ,
      Int.mul_neg_one, Int.neg_mul]

/-- The least integer has no opposite, so no sign can be put in front of it. -/
theorem Value.negated_least (count : Nat) :
    (integer Int64.minValue).negated (count + 1) = .error (.integerOverflow .sub) := by
  induction count with
  | zero => rfl
  | succ count ih =>
    rw [negated, ih]
    rfl

namespace Node

/-- An operand under some minus signs has its value with the sign changed so many times. -/
theorem evaluate_negations {operand : Node} {value : Value} {rounds : Nat} {this : This}
    {frame : Frame} (h : (operand.meaning rounds).evaluate this frame = some (.ok value, frame))
    (count : Nat) : ((operand.negations count).meaning rounds).evaluate this frame =
      some (value.negated count, frame) := by
  induction count with
  | zero => exact h
  | succ count ih =>
    change (((operand.negations count).meaning rounds).evaluate this >>= fun negand =>
      Run.lift negand.neg) frame = _
    rw [Run.bind_apply, ih, Value.negated]
    cases value.negated count with
    | ok negand => exact Run.lift_apply negand.neg frame
    | error error => rfl

/-- Signs in front of an integer are built as what they make of it. -/
theorem build_negations (i : Int64) (rounds : Nat) (this : This) (count : Nat) :
    (((integer i).negations count).meaning rounds).build .root this .empty =
      some ((Value.integer i).negated count >>= Value.toJson, .empty) := by
  cases count with
  -- Without a sign the integer is a literal, which is built without being evaluated.
  | zero => rfl
  | succ count =>
    have heval :
        (((integer i).negations (count + 1)).meaning rounds).evaluate none ⟨.empty, #[], 0⟩ =
          some ((Value.integer i).negated (count + 1), ⟨.empty, #[], 0⟩) :=
      evaluate_negations rfl (count + 1)
    change Meaning.building (((integer i).negations (count + 1)).meaning rounds).evaluate .root this
      .empty = _
    rw [Meaning.building, Run.bind_apply]
    change (Build.inFrame _ >>= Meaning.jsonOf) Environment.empty = _
    rw [Run.bind_apply, Build.inFrame, Run.focus, heval]
    cases (Value.integer i).negated (count + 1) with
    | ok value => exact Run.lift_apply value.toJson _
    | error error => rfl

end Node

/-- An array is built from its only element. -/
theorem Document.build_singleton {node : Node} {h : (Node.array [node]).whileFree}
    {result : Except EvalError Json}
    (hbuild : (node.meaning 0).build .root none .empty = some (result, .empty)) :
    Document.build ⟨.array [node], h⟩ = result.map fun json => .array [json] := by
  have harray : ((Node.array [node]).meaning 0).build .root none .empty =
      some (result.map fun json => .array [json], .empty) := by
    change (Meaning.collect (·.build .root none) [node.meaning 0] >>= fun items =>
      pure (Json.array items)) Environment.empty = _
    rw [Run.bind_apply, Meaning.collect, Run.bind_apply, hbuild]
    cases result <;> rfl
  have hrun : Interpreter.new.build 0 (.array [node]) =
      some (result.map fun json => .array [json], ⟨.empty⟩) := by
    rw [Interpreter.build]
    change Option.map _ (((Node.array [node]).meaning 0).build .root none .empty) = _
    rw [harray]
    rfl
  unfold Document.build
  simp only [hrun, Option.get_some]

/-- The compact text of an array with one integer. -/
theorem Json.render_singleton_integer (i : Int64) :
    (Json.array [.integer i]).render .compact = '[' :: integerText i.toInt ++ [']'] := by
  simp [render, text, itemTexts, bracketed, Spacing.compact]

/-- Compiling a source refuses it because it is nested too deeply. -/
def IsTooDeep (source : String) : Prop := ∀ spacing, ∃ error : ParseError,
  compile source spacing = .error (.parse error) ∧ error.fault = .tooDeep ∧
    error.complaint = "Nesting deeper than 128 levels"

/-- A source whose tokens do not parse is not compiled. -/
theorem compile_of_parse_error {source : String} {tokens : List Token} {error : ParseError}
    (htokens : tokenize source = .ok tokens) (hparse : parse tokens = .error error)
    (spacing : Spacing) : compile source spacing = .error (.parse error) := by
  simp only [compile, buildSource, parseSource, htokens, Document.ofTokens_eq_error hparse,
    Except.mapError, bind, Except.bind]

/-- Signs in front of an operand that is an integer, as the only element of an array. -/
theorem compile_negations {source : String} {tokens : List Token} (first : TokenKind)
    (more : List TokenKind) {i : Int64} {count : Nat} (htokens : tokenize source = .ok tokens)
    (hleast : first ≠ .integer (2 ^ 63))
    (hfirst : first ∉ [.symbol .comma, .symbol .rightBracket, .symbol .arrow])
    (hread : ∀ levels input, kinds input = first :: more ++ [.symbol .rightBracket] →
      Accepts (Leaves (Node.integer i) [.symbol .rightBracket]) ((Rules.nested levels).unary input))
    (hkinds : kinds (beforeEnd tokens) = .symbol .leftBracket ::
      (List.replicate count (.symbol .minus) ++ (first :: more ++ [.symbol .rightBracket]))) :
    (count ≤ 128 → ∀ spacing, compile source spacing =
      (((Value.integer i).negated count >>= Value.toJson).mapError .eval).map fun json =>
        .ofList ((Json.array [json]).render spacing)) ∧
      (128 < count → IsTooDeep source) := by
  obtain ⟨hok, herror⟩ := parse_negations hleast hfirst hread hkinds
  constructor
  · intro hle spacing
    have hbuild := Document.build_singleton (h := whileFree_of_parse (hok hle))
      (Node.build_negations i 0 none count)
    generalize (Value.integer i).negated count >>= Value.toJson = result at hbuild ⊢
    simp only [compile, buildSource, parseSource, htokens, Document.ofTokens_eq_ok (hok hle),
      hbuild, Except.mapError, bind, Except.bind]
    cases result <;> rfl
  · intro hlt spacing
    obtain ⟨error, hparse, hfault⟩ := herror hlt
    refine ⟨error, compile_of_parse_error htokens hparse spacing, hfault, ?_⟩
    rw [ParseError.complaint, hfault]
    dsimp only
    decide

namespace SignedNumeral

variable {numeral : SignedNumeral}

/-- A magnitude that is an integer itself comes out with the sign that all signs make together. -/
theorem compile_of_lt (h : numeral.magnitude < 2 ^ 63) :
    (numeral.signs.length ≤ 128 → ∀ spacing, compile numeral.source spacing =
      .ok (.ofList ((Json.array [.integer (.ofInt numeral.value)]).render spacing))) ∧
      (128 < numeral.signs.length → IsTooDeep numeral.source) := by
  obtain ⟨tokens, htokens, hkinds⟩ := exists_tokenize (Nat.le_of_lt h)
  have hnatAbs : ((numeral.magnitude : Nat) : Int).natAbs < 2 ^ 63 := h
  have hcompile := compile_negations (.integer numeral.magnitude) [] htokens
    (by simpa using Nat.ne_of_lt h) (by simp) (fun levels input => accepts_unary_magnitude h) hkinds
  rw [Value.negated_integer hnatAbs] at hcompile
  exact hcompile

/-- The magnitude of the least integer needs a sign, which goes no level down. -/
theorem compile_of_eq (h : numeral.magnitude = 2 ^ 63) {count : Nat}
    (hsigns : numeral.signs.length = count + 1) :
    (count ≤ 128 → ∀ spacing, compile numeral.source spacing =
      (((Value.integer Int64.minValue).negated count >>= Value.toJson).mapError .eval).map
        fun json => .ofList ((Json.array [json]).render spacing)) ∧
      (128 < count → IsTooDeep numeral.source) := by
  obtain ⟨tokens, htokens, hkinds⟩ := exists_tokenize (Nat.le_of_eq h)
  -- The last sign belongs to the operand, so there is one sign less in front of it.
  rw [hsigns, h, List.replicate_succ'] at hkinds
  refine compile_negations (.symbol .minus) [.integer (2 ^ 63)] htokens (by simp) (by simp)
    (fun levels input => accepts_unary_least) ?_
  simpa using hkinds

/-- Without a sign it is refused. -/
theorem compile_unsigned (h : numeral.magnitude = 2 ^ 63) (hsigns : numeral.signs = [])
    (spacing : Spacing) : ∃ error : ParseError,
      compile numeral.source spacing = .error (.parse error) ∧
        error.fault = .integerTooLarge (2 ^ 63) ∧
        error.complaint = "Integer literal 9223372036854775808 is out of range" := by
  obtain ⟨tokens, htokens, hkinds⟩ := exists_tokenize (Nat.le_of_eq h)
  rw [hsigns, h] at hkinds
  obtain ⟨span, rest, hbefore, hrest⟩ := kinds_eq_cons_iff.mp hkinds
  obtain ⟨span', rest, rfl, -⟩ := kinds_eq_cons_iff.mp hrest
  have hroot := settles_root_of_element (P := fun _ => False) span (by simp)
    ((settles_unary_least hrest).mono (fun _ _ => False.elim) fun _ => id)
  rw [← hbefore] at hroot
  rcases parse_of_settles (E := (· = .integerTooLarge (2 ^ 63))) hroot with
    ⟨tree, -, value, hfalse, -⟩ | ⟨error, hparse, hfault⟩
  · exact hfalse.elim
  · refine ⟨error, compile_of_parse_error htokens hparse spacing, hfault, ?_⟩
    rw [ParseError.complaint, hfault]
    dsimp only
    decide +kernel

variable (numeral)

/-- What is known of compiling digits with signs in an array. -/
structure CompilesExactly : Prop where
  /-- A magnitude beyond that of the least integer is no lexeme, whatever its signs. -/
  beyond : 2 ^ 63 < numeral.magnitude → ∀ spacing, compile numeral.source spacing =
    .error (.lex ⟨.invalidInteger numeral.digits, byteLength numeral.front⟩)
  exact : numeral.magnitude < 2 ^ 63 → numeral.signs.length ≤ 128 →
    compile numeral.source .compact = .ok (.ofList ('[' :: integerText numeral.value ++ [']']))
  tooDeep : numeral.magnitude < 2 ^ 63 → 128 < numeral.signs.length → IsTooDeep numeral.source
  /-- Without a sign the magnitude of the least integer is out of range. -/
  unsigned : numeral.magnitude = 2 ^ 63 → numeral.signs.length = 0 → ∀ spacing,
    ∃ error : ParseError, compile numeral.source spacing = .error (.parse error) ∧
      error.fault = .integerTooLarge (2 ^ 63) ∧
      error.complaint = "Integer literal 9223372036854775808 is out of range"
  least : numeral.magnitude = 2 ^ 63 → numeral.signs.length = 1 →
    compile numeral.source .compact = .ok "[-9223372036854775808]"
  /-- The least integer has no opposite, whatever the number of signs says. -/
  overflow : numeral.magnitude = 2 ^ 63 → 2 ≤ numeral.signs.length → numeral.signs.length ≤ 129 →
    ∀ spacing, compile numeral.source spacing = .error (.eval (.integerOverflow .sub))
  /-- One more sign is allowed than in front of other magnitudes. -/
  leastTooDeep : numeral.magnitude = 2 ^ 63 → 129 < numeral.signs.length →
    IsTooDeep numeral.source

/-- Digits with signs stand for exactly the integer they spell, or are refused. -/
theorem compilesExactly : numeral.CompilesExactly where
  beyond h spacing := by
    rw [compile, buildSource, parseSource, tokenize_eq_error h]
    rfl
  exact h hsigns := by
    have hvalue := natAbs_signed numeral.signs.length numeral.magnitude
    have htoInt : (Int64.ofInt numeral.value).toInt = numeral.value :=
      Int64.toInt_ofInt_of_le (by unfold value; omega) (by unfold value; omega)
    rw [(compile_of_lt h).1 hsigns, Json.render_singleton_integer, htoInt]
  tooDeep h := (compile_of_lt h).2
  unsigned h hsigns := compile_unsigned h (List.eq_nil_of_length_eq_zero hsigns)
  least h hsigns := by
    rw [(compile_of_eq h hsigns).1 (Nat.zero_le _)]
    decide +kernel
  overflow h htwo hsigns spacing := by
    obtain ⟨count, hcount⟩ := Nat.exists_eq_add_of_le' htwo
    rw [(compile_of_eq h hcount).1 (by omega), Value.negated_least]
    rfl
  leastTooDeep h hsigns := by
    obtain ⟨count, hcount⟩ := Nat.exists_eq_add_of_lt hsigns
    exact (compile_of_eq h hcount).2 (by omega)

end SignedNumeral

end JsonTemplate
