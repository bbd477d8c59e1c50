import JsonTemplate.Proofs.Json.Unambiguity
import JsonTemplate.Proofs.Recompilation

/-!
# What a template is compiled to

The text that a template is compiled to is a JSON text of the value that the template was built
as. A value reaches the text through literals, through expressions, through `this` and through
blocks; all that the text needs of it is that it is canonical, which every evaluation keeps.
-/

namespace JsonTemplate

/-- A compiled text is a JSON text with a container as its root, and however it is read as one,
it stands for the value that was built, names no member of an object twice and holds no numbers
but 64-bit integers and printed finite doubles. Without the blanks around its tokens it is the
compact text of the same source. -/
theorem document_of_compile {source text : String} {spacing : Spacing}
    (hspacing : spacing = .compact ∨ spacing = .indented)
    (h : compile source spacing = .ok text) :
    ∃ json : Json, buildSource source = .ok json ∧
      (∃ document : DocumentSpelling, document.text = text) ∧
      ∀ document : DocumentSpelling, document.text = text →
        document.root.value = json ∧ document.root.Supported ∧ document.root.Interoperable ∧
          Spaced document.tokenTexts text.toList ∧
            compile source .compact = .ok (.ofList document.tokenTexts.flatten) := by
  obtain ⟨json, hbuild, htext⟩ := compile_eq_ok_iff.mp h
  obtain ⟨hcanonical, hcontainer⟩ := canonical_of_buildSource hbuild
  obtain ⟨printed, hprinted, hvalue, hsupported, hinteroperable, hcompact, -⟩ :=
    exists_documentSpelling (isBlank_of_mode hspacing) hcanonical hcontainer
  refine ⟨json, hbuild, ⟨printed, hprinted.trans htext⟩, fun document hdocument => ?_⟩
  have halike := DocumentSpelling.alike_of_text_eq (hdocument.trans (hprinted.trans htext).symm)
  refine ⟨halike.value_eq.trans hvalue, halike.supported_iff.mpr hsupported,
    halike.interoperable_iff.mpr hinteroperable, hdocument ▸ document.spaced, ?_⟩
  refine compile_eq_ok_iff.mpr ⟨json, hbuild, ?_⟩
  rw [← hcompact, DocumentSpelling.tokenTexts, DocumentSpelling.tokenTexts, halike.tokenTexts_eq]

/-- A repeated name and a difference are compiled to one member with a negative number. -/
theorem document_of_compile_repeated :
    compile "\x7b\"a\": 2, \"a\": 0-1\x7d" .indented = .ok "\x7b\n  \"a\": -1\n\x7d" ∧
      ∃ document : DocumentSpelling, document.text = "\x7b\n  \"a\": -1\n\x7d" ∧
        document.root.value = .object [("a", .integer (-1))] ∧ document.root.Interoperable := by
  have hbuild : buildSource "\x7b\"a\": 2, \"a\": 0-1\x7d" =
      .ok (.object [("a", .integer (-1))]) := by with_unfolding_all rfl
  have hcompile : compile "\x7b\"a\": 2, \"a\": 0-1\x7d" .indented =
      .ok "\x7b\n  \"a\": -1\n\x7d" := compile_eq_ok_iff.mpr ⟨_, hbuild, by decide⟩
  obtain ⟨json, hjson, ⟨document, htext⟩, hall⟩ := document_of_compile (Or.inr rfl) hcompile
  cases hbuild.symm.trans hjson
  obtain ⟨hvalue, -, hinteroperable, -⟩ := hall document htext
  exact ⟨hcompile, document, htext, hvalue, hinteroperable⟩

end JsonTemplate
