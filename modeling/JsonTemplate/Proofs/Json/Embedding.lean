import JsonTemplate.Compile
import JsonTemplate.Proofs.Json.Building

/-!
# JSON texts as templates

Every JSON text with a container as its root, and with a value for each of its strings and
numbers, is a template. It is compiled to the text of its value, unless a container or a negated
number in it has more than 128 containers around it; then it is refused as nested too deeply.
-/

namespace JsonTemplate

namespace DocumentSpelling

/-- A document is shallow exactly if its root fits into one level more than may be nested
inside it. -/
theorem fits_iff_isShallow (document : DocumentSpelling) :
    document.root.Fits 129 ↔ document.IsShallow := by
  rw [Spelling.fits_iff]
  exact forall₄_congr fun _ _ _ _ => Nat.lt_succ_iff

/-- A tree that is built without bindings is the document's value. -/
theorem build_eq_ok {document : Document} {json : Json}
    (h : Builds ((document.root.meaning 0).build .root none) json) :
    document.build = .ok json := by
  have hbuild : Interpreter.new.build 0 document.root = some (.ok json, ⟨.empty⟩) := by
    rw [Interpreter.build]
    change Option.map _ ((document.root.meaning 0).build .root none .empty) = _
    rw [h]
    rfl
  unfold Document.build
  simp only [hbuild, Option.get_some]

/-- A shallow document has its value, and any other is refused for its depth. -/
theorem buildSource_text {document : DocumentSpelling} (h : document.root.Supported) :
    (document.IsShallow → buildSource document.text = .ok document.root.value) ∧
      (¬document.IsShallow → ∃ error, buildSource document.text = .error (.parse error) ∧
        error.fault = .tooDeep) := by
  obtain ⟨tokens, htokenize, hkinds⟩ := exists_tokenize h
  obtain ⟨hok, herror⟩ := parse_of_container document.root_isContainer h hkinds
  rw [fits_iff_isShallow] at hok herror
  constructor
  · intro hshallow
    have hparse := Document.ofTokens_eq_ok (hok hshallow)
    have hbuild : Document.build ⟨document.root.tree, whileFree_of_parse (hok hshallow)⟩ =
        .ok document.root.value := build_eq_ok (document.root.isBuilt h 0 none)
    simp only [buildSource, parseSource, htokenize, hparse, hbuild, Except.mapError, bind,
      Except.bind]
  · intro hdeep
    obtain ⟨error, hparse, hfault⟩ := herror hdeep
    refine ⟨error, ?_, hfault⟩
    simp only [buildSource, parseSource, htokenize, Document.ofTokens_eq_error hparse,
      Except.mapError, bind, Except.bind]

end DocumentSpelling

/-- A JSON text with a container as its root is compiled to the text of its value, or refused
because it is nested deeper than 128 levels. -/
theorem compile_spelling (document : DocumentSpelling) (h : document.root.Supported)
    (spacing : Spacing) :
    (document.IsShallow →
      compile document.text spacing = .ok (.ofList (document.root.value.render spacing))) ∧
    (¬document.IsShallow → ∃ error : ParseError,
      compile document.text spacing = .error (.parse error) ∧ error.fault = .tooDeep ∧
        error.complaint = "Nesting deeper than 128 levels") := by
  obtain ⟨hok, herror⟩ := DocumentSpelling.buildSource_text h
  constructor
  · intro hshallow
    rw [compile, hok hshallow]
    rfl
  · intro hdeep
    obtain ⟨error, hbuild, hfault⟩ := herror hdeep
    refine ⟨error, ?_, hfault, ?_⟩
    · rw [compile, hbuild]
      rfl
    · rw [ParseError.complaint, hfault]
      dsimp only
      decide

/-- The number `-1`. -/
def minusOne : NumberSpelling where
  negative := true
  numeral := ⟨['1'], none, none⟩
  wellFormed := ⟨by simp [AllDigits], by simp, nofun, nofun⟩
  whole_eq := by simp
  fraction_ne_nil := nofun

/-- The document `[-1 ]`. -/
def minusOneDocument : DocumentSpelling where
  before := ⟨[], by simp⟩
  root := .array (.lastItem ⟨[], by simp⟩ (.number minusOne) ⟨[' '], by simp⟩)
  root_isContainer := by trivial
  after := ⟨[], by simp⟩

/-- A negated number in an array is compiled to itself. -/
theorem compile_minusOneDocument :
    minusOneDocument.root.Supported ∧ minusOneDocument.IsShallow ∧
      compile "[-1 ]" .compact = .ok "[-1]" := by
  have hsupported : minusOneDocument.root.Supported := by
    change -2 ^ 63 ≤ (-1 : Int) ∧ (-1 : Int) < 2 ^ 63
    decide
  have hshallow : minusOneDocument.IsShallow := by
    rw [← DocumentSpelling.fits_iff_isShallow]
    exact ⟨by decide, fun _ => by decide⟩
  refine ⟨hsupported, hshallow, ?_⟩
  have hcompile := (compile_spelling minusOneDocument hsupported .compact).1 hshallow
  have htext : minusOneDocument.text = "[-1 ]" := by rfl
  have hvalue : String.ofList (minusOneDocument.root.value.render .compact) = "[-1]" := by rfl
  rwa [htext, hvalue] at hcompile

end JsonTemplate
