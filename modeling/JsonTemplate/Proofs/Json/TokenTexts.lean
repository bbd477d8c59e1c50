import JsonTemplate.Proofs.Json.Spelling
import JsonTemplate.Proofs.Json.Members
import JsonTemplate.Number.Layout

/-!
# JSON texts as tokens

A JSON text is its tokens with blanks around them: the six signs, the words, the strings with
their quotes and the numbers with their minus signs. Two texts with the same tokens differ only
in those blanks.

RFC 8259 lets a text repeat a name in an object and spell a number that no reader keeps. The
texts that mean the same to every reader are the interoperable ones.
-/

namespace JsonTemplate

/-- A text of the given tokens with nothing but blanks around them. -/
inductive Spaced : List (List Char) → List Char → Prop
  | blank (gap : Whitespace) : Spaced [] gap.text
  | token (gap : Whitespace) (token : List Char) {tokens : List (List Char)} {text : List Char} :
      Spaced tokens text → Spaced (token :: tokens) (gap.text ++ (token ++ text))

namespace Whitespace

/-- Nothing is in the empty text. -/
theorem blank_of_mem_nil : ∀ c ∈ ([] : List Char), c ∈ [' ', '\t', '\n', '\r'] :=
  List.forall_mem_nil _

/-- No blank at all. -/
def empty : Whitespace := ⟨[], blank_of_mem_nil⟩

/-- The empty whitespace has an empty text. -/
@[simp]
theorem text_empty : empty.text = [] := rfl

/-- Whitespace followed by more whitespace. -/
def append (first second : Whitespace) : Whitespace where
  text := first.text ++ second.text
  all_blank c hc := (List.mem_append.mp hc).elim (first.all_blank c) (second.all_blank c)

end Whitespace

namespace Spaced

variable {tokens : List (List Char)} {text : List Char}

/-- Whitespace in front of a text leaves its tokens as they are. -/
theorem withBlank (h : Spaced tokens text) (gap : Whitespace) :
    Spaced tokens (gap.text ++ text) := by
  cases h with
  | blank other => exact .blank (gap.append other)
  | token other word hrest =>
    rw [← List.append_assoc]
    exact .token (gap.append other) word hrest

/-- A token in front of a text is its first token. -/
theorem withToken (h : Spaced tokens text) (token : List Char) :
    Spaced (token :: tokens) (token ++ text) :=
  .token .empty token h

/-- A sign in front of a text is its first token. -/
theorem withSign (h : Spaced tokens text) (sign : Char) :
    Spaced ([sign] :: tokens) (sign :: text) :=
  h.withToken [sign]

end Spaced

namespace Spelling

/-- The tokens of a part. -/
def tokenTexts : {part : Part} → Spelling part → List (List Char)
  | _, null => [['n', 'u', 'l', 'l']]
  | _, boolean true => [['t', 'r', 'u', 'e']]
  | _, boolean false => [['f', 'a', 'l', 's', 'e']]
  | _, number spelled => [spelled.text]
  | _, string units => [quoted units]
  | _, emptyArray _ => [['['], [']']]
  | _, array items => ['['] :: items.tokenTexts ++ [[']']]
  | _, emptyObject _ => [['{'], ['}']]
  | _, object members => ['{'] :: members.tokenTexts ++ [['}']]
  | _, lastItem _ value _ => value.tokenTexts
  | _, item _ value _ rest => value.tokenTexts ++ [','] :: rest.tokenTexts
  | _, lastMember _ name _ _ value _ => quoted name :: [':'] :: value.tokenTexts
  | _, member _ name _ _ value _ rest =>
    quoted name :: [':'] :: value.tokenTexts ++ [','] :: rest.tokenTexts

/-- A part is its tokens with blanks around them. -/
theorem spaced {part : Part} (spelling : Spelling part) {tokens : List (List Char)}
    {rest : List Char} (h : Spaced tokens rest) :
    Spaced (spelling.tokenTexts ++ tokens) (spelling.text ++ rest) := by
  induction spelling generalizing tokens rest with
  | null => exact h.withToken _
  | boolean value => cases value <;> exact h.withToken _
  | number spelled => exact h.withToken _
  | string units => exact h.withToken _
  | emptyArray inside =>
    simpa [text, tokenTexts] using ((h.withSign ']').withBlank inside).withSign '['
  | array items ih => simpa [text, tokenTexts] using (ih (h.withSign ']')).withSign '['
  | emptyObject inside =>
    simpa [text, tokenTexts] using ((h.withSign '}').withBlank inside).withSign '{'
  | object members ih => simpa [text, tokenTexts] using (ih (h.withSign '}')).withSign '{'
  | lastItem before value after ih =>
    simpa [text, tokenTexts] using (ih (h.withBlank after)).withBlank before
  | item before value after rest ih ihRest =>
    have hrest := ((ihRest h).withSign ',').withBlank after
    simpa [text, tokenTexts] using (ih hrest).withBlank before
  | lastMember before name beforeColon afterColon value after ih =>
    have hcolon := ((ih (h.withBlank after)).withBlank afterColon).withSign ':'
    simpa [text, tokenTexts] using
      ((hcolon.withBlank beforeColon).withToken (quoted name)).withBlank before
  | member before name beforeColon afterColon value after rest ih ihRest =>
    have hvalue := ih (((ihRest h).withSign ',').withBlank after)
    have hcolon := (hvalue.withBlank afterColon).withSign ':'
    simpa [text, tokenTexts] using
      ((hcolon.withBlank beforeColon).withToken (quoted name)).withBlank before

end Spelling

/-- A 64-bit integer without fraction and exponent, or the text that a finite double is printed
as. -/
def NumberSpelling.Interoperable (number : NumberSpelling) : Prop :=
  (number.numeral.isFloat = false ∧ -2 ^ 63 ≤ number.integer ∧ number.integer < 2 ^ 63) ∨
    ∃ value : Double, value.isFinite ∧ number.text = Layout.json.text value

/-- No object has two members of one name, and all numbers are interoperable. -/
def Spelling.Interoperable : {part : Part} → Spelling part → Prop
  | _, number spelled => spelled.Interoperable
  | _, array items => items.Interoperable
  | _, object members => (Json.names members.value).Nodup ∧ members.Interoperable
  | _, lastItem _ value _ => value.Interoperable
  | _, item _ value _ rest => value.Interoperable ∧ rest.Interoperable
  | _, lastMember _ _ _ _ value _ => value.Interoperable
  | _, member _ _ _ _ value _ rest => value.Interoperable ∧ rest.Interoperable
  | _, null | _, boolean _ | _, string _ | _, emptyArray _ | _, emptyObject _ => True

namespace DocumentSpelling

/-- The texts of the tokens of a document. -/
def tokenTexts (document : DocumentSpelling) : List (List Char) := document.root.tokenTexts

/-- A document is its tokens with blanks around them. -/
theorem spaced (document : DocumentSpelling) : Spaced document.tokenTexts document.text.toList := by
  rw [text, String.toList_ofList, List.append_assoc]
  have hroot := (document.root.spaced (.blank document.after)).withBlank document.before
  rwa [List.append_nil] at hroot

end DocumentSpelling

end JsonTemplate
