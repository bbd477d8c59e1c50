import JsonTemplate.Proofs.Parser.Outcome

/-!
# Derivations

The grammar of templates over the kinds of tokens, without the parser. A derivation relates a
phrase and its tree to the tokens in front of it and those behind it. Commas and semicolons
between parts are tokens of their own productions, so any number of them may stand there.

Two productions look at the next token. An expression is not followed by an operator and a
path not by what could continue it, so that of two ways to cut the same tokens into phrases
the one with the longer first phrase is meant: `[1 -2]` has one element. After `this` and its
path the grammar has no place for a name, a number or another `this` at all.

The number of levels counts what is nested inside a phrase: literals, blocks, groups and the
operands of minus signs.
-/

namespace JsonTemplate

/-- The sign of an operator. -/
def Operator.sign : Operator → Symbol
  | .add => .plus
  | .sub => .minus
  | .mul => .star
  | .div => .slash

/-- Whether a token is the sign of an operator. -/
def IsOperator (kind : TokenKind) : Prop := ∃ operator : Operator, kind = .symbol operator.sign

/-- Whether a token can not follow a path: it would continue it, or it is a name, a number or
`this`. -/
def ExtendsPath : TokenKind → Prop
  | .symbol .dot | .symbol .leftBracket | .identifier _ | .integer _ | .float _
  | .keyword .this => True
  | _ => False

/-- Whether a statement can end before a token. -/
def EndsStatement (kind : TokenKind) : Prop :=
  kind = .symbol .semicolon ∨ kind = .symbol .rightBrace

/-- The accessors after `this`, as many as there are. -/
inductive PathDerives : List Accessor → List TokenKind → List TokenKind → Prop
  | stop {rest : List TokenKind} : NotBefore ExtendsPath rest → PathDerives [] rest rest
  | name {name : String} {path : List Accessor} {input rest : List TokenKind} :
      PathDerives path input rest →
      PathDerives (.field name :: path) (.symbol .dot :: .identifier name :: input) rest
  | word {word : Keyword} {path : List Accessor} {input rest : List TokenKind} :
      PathDerives path input rest →
      PathDerives (.field word.text :: path) (.symbol .dot :: .keyword word :: input) rest
  | index {position : Nat} {path : List Accessor} {input rest : List TokenKind} :
      PathDerives path input rest →
      PathDerives (.index position :: path)
        (.symbol .leftBracket :: .integer position :: .symbol .rightBracket :: input) rest
  | key {raw : String} {path : List Accessor} {input rest : List TokenKind} :
      PathDerives path input rest →
      PathDerives (.field (decodeString raw) :: path)
        (.symbol .leftBracket :: .string raw :: .symbol .rightBracket :: input) rest

/-- The phrases of the grammar. Objects, arrays and blocks are taken from after their opening
sign up to and including the closing one. -/
inductive Phrase where
  | object | array | block | value | statement | expression | sum | product | unary | primary

/-- A phrase with its tree, between the tokens in front and those behind, with at most the
given number of levels nested inside. -/
inductive Derives : Phrase → Nat → Node → List TokenKind → List TokenKind → Prop
  | objectEnd {levels : Nat} {rest : List TokenKind} :
      Derives .object levels (.object []) (.symbol .rightBrace :: rest) rest
  | objectComma {levels : Nat} {tree : Node} {input rest : List TokenKind} :
      Derives .object levels tree input rest →
      Derives .object levels tree (.symbol .comma :: input) rest
  | objectMember {levels : Nat} {raw : String} {value : Node} {members : List (String × Node)}
      {input more rest : List TokenKind} :
      Derives .value levels value input more → Derives .object levels (.object members) more rest →
      Derives .object levels (.object ((decodeString raw, value) :: members))
        (.string raw :: .symbol .colon :: input) rest
  | arrayEnd {levels : Nat} {rest : List TokenKind} :
      Derives .array levels (.array []) (.symbol .rightBracket :: rest) rest
  | arrayComma {levels : Nat} {tree : Node} {input rest : List TokenKind} :
      Derives .array levels tree input rest →
      Derives .array levels tree (.symbol .comma :: input) rest
  | arrayElement {levels : Nat} {value : Node} {elements : List Node}
      {input more rest : List TokenKind} :
      Derives .value levels value input more → Derives .array levels (.array elements) more rest →
      Derives .array levels (.array (value :: elements)) input rest
  | blockValue {levels : Nat} {block : Node} {input rest : List TokenKind} :
      Derives .block levels block input rest →
      Derives .value (levels + 1) block (.symbol .arrow :: .symbol .leftBrace :: input) rest
  | expressionValue {levels : Nat} {tree : Node} {input rest : List TokenKind} :
      Derives .expression levels tree input rest → Derives .value levels tree input rest
  | blockEnd {levels : Nat} {rest : List TokenKind} :
      Derives .block levels (.block []) (.symbol .rightBrace :: rest) rest
  | blockSemicolon {levels : Nat} {tree : Node} {input rest : List TokenKind} :
      Derives .block levels tree input rest →
      Derives .block levels tree (.symbol .semicolon :: input) rest
  | blockStatement {levels : Nat} {statement : Node} {statements : List Node}
      {input more rest : List TokenKind} {next : TokenKind} :
      Derives .statement levels statement input (next :: more) → EndsStatement next →
      Derives .block levels (.block statements) (next :: more) rest →
      Derives .block levels (.block (statement :: statements)) input rest
  | binding {levels : Nat} {name : String} {value : Node} {input rest : List TokenKind} :
      Derives .expression levels value input rest →
      Derives .statement levels (.assign name value)
        (.keyword .var :: .identifier name :: .symbol .assign :: input) rest
  | assignment {levels : Nat} {name : String} {value : Node} {input rest : List TokenKind} :
      Derives .expression levels value input rest →
      Derives .statement levels (.assign name value)
        (.identifier name :: .symbol .assign :: input) rest
  | returning {levels : Nat} {value : Node} {input rest : List TokenKind} :
      Derives .expression levels value input (.symbol .semicolon :: rest) →
      Derives .statement levels (.return_ value) (.keyword .return_ :: input)
        (.symbol .semicolon :: rest)
  | expressionStatement {levels : Nat} {tree : Node} {next : TokenKind}
      {input rest : List TokenKind} :
      Derives .expression levels tree input (next :: rest) → EndsStatement next →
      Derives .statement levels tree input (next :: rest)
  | expression {levels : Nat} {tree : Node} {input rest : List TokenKind} :
      Derives .sum levels tree input rest → NotBefore IsOperator rest →
      Derives .expression levels tree input rest
  | term {levels : Nat} {tree : Node} {input rest : List TokenKind} :
      Derives .product levels tree input rest → Derives .sum levels tree input rest
  | addend {levels : Nat} {operator : Operator} {left right : Node}
      {input more rest : List TokenKind} :
      operator = .add ∨ operator = .sub →
      Derives .sum levels left input (.symbol operator.sign :: more) →
      Derives .product levels right more rest →
      Derives .sum levels (.binary operator left right) input rest
  | operand {levels : Nat} {tree : Node} {input rest : List TokenKind} :
      Derives .unary levels tree input rest → Derives .product levels tree input rest
  | factor {levels : Nat} {operator : Operator} {left right : Node}
      {input more rest : List TokenKind} :
      operator = .mul ∨ operator = .div →
      Derives .product levels left input (.symbol operator.sign :: more) →
      Derives .unary levels right more rest →
      Derives .product levels (.binary operator left right) input rest
  | least {levels : Nat} {rest : List TokenKind} :
      Derives .unary levels (.integer Int64.minValue)
        (.symbol .minus :: .integer (2 ^ 63) :: rest) rest
  | negation {levels : Nat} {operand : Node} {input rest : List TokenKind} :
      Derives .unary levels operand input rest →
      Derives .unary (levels + 1) (.negate operand) (.symbol .minus :: input) rest
  | unsigned {levels : Nat} {tree : Node} {input rest : List TokenKind} :
      Derives .primary levels tree input rest → Derives .unary levels tree input rest
  | integer {levels magnitude : Nat} {rest : List TokenKind} :
      magnitude < 2 ^ 63 →
      Derives .primary levels (.integer (.ofInt magnitude)) (.integer magnitude :: rest) rest
  | float {levels : Nat} {value : Double} {rest : List TokenKind} :
      Derives .primary levels (.float value) (.float value :: rest) rest
  | string {levels : Nat} {raw : String} {rest : List TokenKind} :
      Derives .primary levels (.string (decodeString raw)) (.string raw :: rest) rest
  | true_ {levels : Nat} {rest : List TokenKind} :
      Derives .primary levels (.boolean true) (.keyword .true_ :: rest) rest
  | false_ {levels : Nat} {rest : List TokenKind} :
      Derives .primary levels (.boolean false) (.keyword .false_ :: rest) rest
  | null {levels : Nat} {rest : List TokenKind} :
      Derives .primary levels .null (.keyword .null :: rest) rest
  | name {levels : Nat} {name : String} {rest : List TokenKind} :
      Derives .primary levels (.lookup name) (.identifier name :: rest) rest
  | this {levels : Nat} {path : List Accessor} {input rest : List TokenKind} :
      PathDerives path input rest →
      Derives .primary levels (.this path) (.keyword .this :: input) rest
  | nestedObject {levels : Nat} {tree : Node} {input rest : List TokenKind} :
      Derives .object levels tree input rest →
      Derives .primary (levels + 1) tree (.symbol .leftBrace :: input) rest
  | nestedArray {levels : Nat} {tree : Node} {input rest : List TokenKind} :
      Derives .array levels tree input rest →
      Derives .primary (levels + 1) tree (.symbol .leftBracket :: input) rest
  | group {levels : Nat} {tree : Node} {input rest : List TokenKind} :
      Derives .expression levels tree input (.symbol .rightParen :: rest) →
      Derives .primary (levels + 1) tree (.symbol .leftParen :: input) rest

/-- A whole document: one object or array, with at most 128 levels nested inside it. -/
inductive DocumentDerives : Node → List TokenKind → Prop
  | object {tree : Node} {input : List TokenKind} :
      Derives .object 128 tree input [] → DocumentDerives tree (.symbol .leftBrace :: input)
  | array {tree : Node} {input : List TokenKind} :
      Derives .array 128 tree input [] → DocumentDerives tree (.symbol .leftBracket :: input)

/-- A path takes no end of input. -/
theorem PathDerives.endOfInput_mem_iff {path : List Accessor} {input rest : List TokenKind}
    (h : PathDerives path input rest) : .endOfInput ∈ input ↔ .endOfInput ∈ rest := by
  induction h with
  | stop => exact Iff.rfl
  | name _ ih | word _ ih | index _ ih | key _ ih => simp [ih]

/-- The tokens of a phrase are not the end of input. -/
theorem Derives.endOfInput_mem_iff {phrase : Phrase} {levels : Nat} {tree : Node}
    {input rest : List TokenKind} (h : Derives phrase levels tree input rest) :
    .endOfInput ∈ input ↔ .endOfInput ∈ rest := by
  induction h with
  | this hpath => simp [hpath.endOfInput_mem_iff]
  | least | integer => simp
  | _ => simp_all

/-- A document has no end of input in it. -/
theorem DocumentDerives.endOfInput_notMem {tree : Node} {input : List TokenKind}
    (h : DocumentDerives tree input) : .endOfInput ∉ input := by
  cases h with
  | object hobject => simp [hobject.endOfInput_mem_iff]
  | array harray => simp [harray.endOfInput_mem_iff]

end JsonTemplate
