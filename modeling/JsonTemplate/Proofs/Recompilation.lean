import JsonTemplate.Proofs.Evaluation.Results
import JsonTemplate.Proofs.Json.Printing

/-!
# Compiling what was compiled

The text that a template is compiled to is a template itself. It stands for the value that the
first template was built as, so it is compiled to the same texts, whichever way they are spaced
and however often this is repeated.

The exception is a text that is nested more deeply than a template may be. Values can be nested
more deeply than the templates that compute them, because a name can stand for a container and
because a number can become negative without a minus sign in front of it; the texts of such
values are refused.
-/

namespace JsonTemplate

/-- A source that is built has been read as a tree with an object or an array as its root. -/
theorem exists_document_of_buildSource {source : String} {json : Json}
    (h : buildSource source = .ok json) :
    ∃ document : Document, document.root.IsContainer ∧ document.build = .ok json := by
  unfold buildSource parseSource at h
  cases htokens : tokenize source with
  | error error =>
    rw [htokens] at h
    cases h
  | ok tokens =>
    rw [htokens] at h
    cases hparse : parse tokens with
    | error error =>
      simp only [Document.ofTokens_eq_error hparse, Except.mapError, bind, Except.bind] at h
      cases h
    | ok root =>
      simp only [Document.ofTokens_eq_ok hparse, Except.mapError, bind, Except.bind] at h
      refine ⟨⟨root, whileFree_of_parse hparse⟩, isContainer_of_parse hparse, ?_⟩
      split at h
      · cases h
      · rename_i value hvalue
        cases h
        exact hvalue

/-- The value of a template is a canonical object or array. -/
theorem canonical_of_buildSource {source : String} {json : Json}
    (h : buildSource source = .ok json) : json.Canonical ∧ json.IsContainer := by
  obtain ⟨document, hroot, hbuild⟩ := exists_document_of_buildSource h
  constructor
  · exact document.build_of_keeps hbuild Environment.all_empty
      ((Node.keeps_meaning stable_canonical 0 fun _ _ => trivial).build .root none This.all_none)
  · exact document.build_of_keeps hbuild (I := fun _ => True) trivial
      (Node.keeps_build_isContainer hroot 0 .root none)

/-- The text of a canonical object or array is built as that value, or refused because it is
nested too deeply. -/
theorem buildSource_render {spacing : Spacing} (hspacing : spacing.IsBlank) {json : Json}
    (h : json.Canonical) (hcontainer : json.IsContainer) :
    (json.IsShallow → buildSource (.ofList (json.render spacing)) = .ok json) ∧
      (¬json.IsShallow → ∃ error,
        buildSource (.ofList (json.render spacing)) = .error (.parse error) ∧
          error.fault = .tooDeep) := by
  obtain ⟨document, htext, hvalue, hsupported, -, -, hshallow⟩ :=
    exists_documentSpelling hspacing h hcontainer
  rw [← htext, ← hshallow, ← hvalue]
  exact DocumentSpelling.buildSource_text hsupported

/-- Both modes put no more than whitespace between tokens. -/
theorem isBlank_of_mode {spacing : Spacing} (h : spacing = .compact ∨ spacing = .indented) :
    spacing.IsBlank := by
  rcases h with rfl | rfl
  · exact Spacing.isBlank_compact
  · exact Spacing.isBlank_indented

/-- A source is compiled to the rendering of what it builds. -/
theorem compile_eq_ok_iff {source text : String} {spacing : Spacing} :
    compile source spacing = .ok text ↔
      ∃ json, buildSource source = .ok json ∧ .ofList (json.render spacing) = text := by
  unfold compile
  cases buildSource source with
  | ok json => simp [bind, Except.bind, pure, Except.pure]
  | error error => simp [bind, Except.bind]

/-- A source whose result is rendered to a text is compiled to it. -/
theorem compile_eq_ok_of_render {source : String} {spacing : Spacing} (text : List Char)
    (h : (buildSource source).toOption.map (·.render spacing) = some text) :
    compile source spacing = .ok (.ofList text) := by
  obtain ⟨json, hjson, rfl⟩ := Option.map_eq_some_iff.mp h
  refine compile_eq_ok_iff.mpr ⟨json, ?_, rfl⟩
  cases hbuild : buildSource source with
  | ok value =>
    rw [hbuild] at hjson
    cases hjson
    rfl
  | error error =>
    rw [hbuild] at hjson
    cases hjson

/-- A compiled text is compiled to the texts that its source is compiled to if no container and
no negative number in its value has more than 128 containers around it. Otherwise it is refused
because it is nested too deeply. -/
theorem compile_compiled {source text : String} {spacing : Spacing}
    (hspacing : spacing = .compact ∨ spacing = .indented)
    (h : compile source spacing = .ok text) :
    ∃ json : Json, buildSource source = .ok json ∧
      (json.IsShallow → ∀ other, compile text other = .ok (.ofList (json.render other)) ∧
        compile source other = .ok (.ofList (json.render other))) ∧
      (¬json.IsShallow → ∀ other, ∃ error : ParseError,
        compile text other = .error (.parse error) ∧ error.fault = .tooDeep) := by
  obtain ⟨json, hbuild, rfl⟩ := compile_eq_ok_iff.mp h
  obtain ⟨hcanonical, hcontainer⟩ := canonical_of_buildSource hbuild
  obtain ⟨hok, herror⟩ := buildSource_render (isBlank_of_mode hspacing) hcanonical hcontainer
  refine ⟨json, hbuild, fun hshallow other => ⟨?_, ?_⟩, fun hdeep other => ?_⟩
  · exact compile_eq_ok_iff.mpr ⟨json, hok hshallow, rfl⟩
  · exact compile_eq_ok_iff.mpr ⟨json, hbuild, rfl⟩
  · obtain ⟨error, hrefused, hfault⟩ := herror hdeep
    refine ⟨error, ?_, hfault⟩
    rw [compile, hrefused]
    rfl

/-- The difference of zero and one in an array is compiled to a text that is compiled to the
same texts as the difference itself. -/
theorem compile_difference :
    compile "[0-1]" .compact = .ok "[-1]" ∧
      ∀ other, compile "[-1]" other = compile "[0-1]" other := by
  have hbuild : buildSource "[0-1]" = .ok (.array [.integer (-1)]) := by with_unfolding_all rfl
  have hcompile : compile "[0-1]" .compact = .ok "[-1]" :=
    compile_eq_ok_iff.mpr ⟨_, hbuild, by decide⟩
  obtain ⟨json, hjson, hsame, -⟩ := compile_compiled (Or.inl rfl) hcompile
  cases hbuild.symm.trans hjson
  have hshallow : (Json.array [.integer (-1)]).IsShallow := by
    rw [← Json.fits_iff_isShallow, Json.fits_array, List.forall_mem_singleton,
      Json.fits_of_not_isContainer id]
    exact ⟨by decide, fun _ => by decide⟩
  refine ⟨hcompile, fun other => ?_⟩
  obtain ⟨htext, hsource⟩ := hsame hshallow other
  rw [htext, hsource]

/-- A value with a number of arrays around it. -/
def Json.within (json : Json) : Nat → Json
  | 0 => json
  | depth + 1 => .array [json.within depth]

/-- A text with a number of brackets around it. -/
def bracketedText (inner : List Char) (depth : Nat) : List Char :=
  List.replicate depth '[' ++ inner ++ List.replicate depth ']'

/-- A value stands within arrays at their number. -/
theorem Json.at_within (json : Json) (depth : Nat) : At json depth (json.within depth) := by
  induction depth with
  | zero => exact .here
  | succ depth ih => exact .array List.mem_cons_self ih

/-- Arrays around a canonical value are canonical. -/
theorem Json.Canonical.within {json : Json} (h : json.Canonical) (depth : Nat) :
    (json.within depth).Canonical := by
  induction depth with
  | zero => exact h
  | succ depth ih =>
    refine .array fun item hitem => ?_
    rw [List.mem_singleton.mp hitem]
    exact ih

/-- In 129 arrays the difference of zero and one is compiled, and the text that it is compiled
to is refused: its minus sign is nested more deeply than a template may be. -/
theorem compile_nested_difference :
    compile (.ofList (bracketedText ['0', '-', '1'] 129)) .compact =
        .ok (.ofList (bracketedText ['-', '1'] 129)) ∧
      ∃ error, compile (.ofList (bracketedText ['-', '1'] 129)) .compact =
        .error (.parse error) ∧ error.fault = .tooDeep := by
  constructor
  · apply compile_eq_ok_of_render _
    simp only [buildSource, parseSource, tokenize, Scanner.ofSource, String.toList_ofList]
    decide +kernel
  · have hcanonical := (Json.Canonical.integer (-1)).within 129
    have hdeep : ¬((Json.integer (-1)).within 129).IsShallow := by
      intro hshallow
      have hlevel := hshallow 129 _ (Json.at_within _ _) ⟨by decide, by decide⟩
      omega
    have htext : ((Json.integer (-1)).within 129).render .compact =
        bracketedText ['-', '1'] 129 := by decide +kernel
    obtain ⟨error, hbuild, hfault⟩ :=
      (buildSource_render Spacing.isBlank_compact hcanonical trivial).2 hdeep
    refine ⟨error, ?_, hfault⟩
    rw [compile, ← htext, hbuild]
    rfl

end JsonTemplate
