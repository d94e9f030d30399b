import Dockerfile.Proofs.Check.Subjects
import Dockerfile.Proofs.Editor.Locality

/-!
# Removing empty lines

The fix for an empty line in an instruction takes this line out of the text, and nothing of what the
file says changes but that there are fewer empty lines (`emptyLine_removed`).
-/

namespace Dockerfile

namespace Analysis

/-- An empty line that is reported is one that an instruction passes over. -/
theorem exists_emptyLine {text : Text} {settings : Settings} {d : Diagnostic}
    (hd : d ∈ (analyze text settings).diagnostics) (hcode : d.code = .emptyContinuationLine) :
    ∃ inst ∈ (File.parse text).instructions, ∃ span ∈ inst.emptyLines,
      d.range = Text.rangeOf text (Text.widen text span) := by
  obtain ⟨f, hf, hreport⟩ := mem_diagnostics_iff.mp hd
  obtain ⟨severity, -, rfl⟩ := Option.map_eq_some_iff.mp hreport
  have hoffers : Fix.offers f.problem.code ≠ [] := by
    rw [show f.problem.code = .emptyContinuationLine from hcode]
    decide
  rcases Check.offered_of_file hf hoffers with
    ⟨directive, -, hf⟩ | ⟨inst, hinst, hf | ⟨-, hspan⟩⟩
  · have hsubject := Check.directive_directive directive f hf
    rw [show f.problem.code = .emptyContinuationLine from hcode] at hsubject
    cases hsubject
  · have hsubject := Check.instruction_subject inst f hf
    rw [show f.problem.code = .emptyContinuationLine from hcode] at hsubject
    rcases hsubject with hsubject | hsubject <;> cases hsubject
  · exact ⟨inst, hinst, f.span, hspan, rfl⟩

end Analysis

/-- Removing an empty line that is reported leaves the directives, the texts of the comments, and the
keywords and regions of the instructions as they are, and there are fewer empty lines. -/
theorem emptyLine_removed (text : Text) (settings : Settings) {d : Diagnostic}
    (hd : d ∈ (analyze text settings).diagnostics) (hcode : d.code = .emptyContinuationLine)
    (target : FixTarget) (htarget : target.range = d.range) :
    ∃ edit, target.edit? (analyze text settings) Fix.removeEmptyLine.command =
        some ⟨target.uri, [edit]⟩ ∧
      let file := File.parse text
      let file' := File.parse (TextEdit.apply text edit)
      file'.directives = file.directives ∧
        file'.comments.map Comment.text = file.comments.map Comment.text ∧
        file'.instructions.map (fun inst => (inst.keyword.text, inst.region.text)) =
          file.instructions.map (fun inst => (inst.keyword.text, inst.region.text)) ∧
        file'.emptyLines.length < file.emptyLines.length := by
  obtain ⟨inst, hinst, span, hspan, hrange⟩ := Analysis.exists_emptyLine hd hcode
  have hedit := @FixTarget.edit?_of_replacement? (analyze text settings) .removeEmptyLine target _ rfl
  refine ⟨_, hedit, ?_⟩
  rw [htarget, hrange]
  have hunlined := @File.unlined_of_emptyLine text inst hinst settings span hspan target.value _ rfl
  exact ⟨hunlined.directives, hunlined.comments, hunlined.texts_eq, hunlined.emptyLines_lt hinst hspan⟩

/-- Without its empty line, `RUN` says the same. -/
theorem emptyLine_removed_run :
    let text := "FROM a\nRUN b \\\n\n c".toList
    ∃ d ∈ (analyze text {}).diagnostics, d.code = .emptyContinuationLine ∧
      ∃ edit, (⟨"file:///D", d.range, none⟩ : FixTarget).edit? (analyze text {})
          Fix.removeEmptyLine.command = some ⟨"file:///D", [edit]⟩ ∧
        (File.parse (TextEdit.apply text edit)).emptyLines.length <
          (File.parse text).emptyLines.length := by
  intro text
  have hreported : ((analyze text {}).findings.filterMap (Diagnostic.ofFinding? text {})).any
      (fun d => decide (d.code = .emptyContinuationLine)) = true := by
    decide +kernel
  obtain ⟨d, hd, hcode⟩ := List.any_eq_true.mp hreported
  have hd := (Analysis.diagnostics_perm text {}).mem_iff.mpr hd
  have hcode := of_decide_eq_true hcode
  obtain ⟨edit, hedit, -, -, -, hlt⟩ := emptyLine_removed text {} hd hcode
    ⟨"file:///D", d.range, none⟩ rfl
  exact ⟨d, hd, hcode, edit, hedit, hlt⟩

end Dockerfile
