import Dockerfile.Proofs.Check.Subjects
import Dockerfile.Proofs.Editor.Locality

/-!
# Setting the escape character

The fix for an escape directive with an invalid value puts an escape character in the place of the
value. It takes effect if and only if that place is not the equals sign (`escape_declared_iff`), which
is what is reported of a value that is missing at the end of the line: without the equals sign the
line is no directive, and those behind it are none either.
-/

namespace Dockerfile

namespace File

/-- The other file declares `c` as its escape character, and its other directives are the same. -/
structure Redeclares (file : File) (c : Char) (file' : File) : Prop where
  escape : file'.escape = c
  declared : file'.declaresEscape = true
  others : (file'.directives.filter fun d => !d.isEscape).map Directive.entry =
    (file.directives.filter fun d => !d.isEscape).map Directive.entry

theorem others_congr {found found' : List Directive}
    (h : found'.map Directive.entry = found.map Directive.entry) :
    (found'.filter fun d => !d.isEscape).map Directive.entry =
      (found.filter fun d => !d.isEscape).map Directive.entry := by
  have hfilter (found : List Directive) : (found.filter fun d => !d.isEscape).map Directive.entry =
      (found.map Directive.entry).filter fun e => !Text.sameIgnoringCase e.1 "escape".toList := by
    rw [List.filter_map]
    rfl
  rw [hfilter, hfilter, h]

theorem selectedEscape?_eq_none {found : List Directive} (h : found.filter Directive.isEscape = []) :
    selectedEscape? found = none := by
  refine List.findSome?_eq_none_iff.mpr fun d hd => ?_
  rw [Directive.escapeChar?, if_neg (List.filter_eq_nil_iff.mp h d hd)]

section Only

variable {text : Text} {d : Directive} {others behind : List Directive}
  (honly : (parse text).directives.filter Directive.isEscape = [d])
  (hfound : (parse text).directives = others ++ d :: behind)
include honly hfound

theorem no_escape_around : d.isEscape = true ∧ others.filter Directive.isEscape = [] ∧
    behind.filter Directive.isEscape = [] := by
  have hd : d.isEscape = true := (List.mem_filter.mp (honly ▸ List.mem_singleton_self d)).2
  rw [hfound, List.filter_append, List.filter_cons_of_pos hd] at honly
  have hlength := congrArg List.length honly
  simp only [List.length_append, List.length_cons, List.length_nil] at hlength
  exact ⟨hd, List.length_eq_zero_iff.mp (by omega), List.length_eq_zero_iff.mp (by omega)⟩

/-- With the value `c` the only escape directive declares `c`. -/
theorem redeclares_of_value {c : Char} (hc : c = '\\' ∨ c = '\x60') {text' : Text}
    (h : (parse text').directives.map Directive.entry =
      others.map Directive.entry ++ (d.name.text, [c]) :: behind.map Directive.entry) :
    (parse text).Redeclares c (parse text') := by
  obtain ⟨hescape, hothers, hbehind⟩ := no_escape_around honly hfound
  have hsame : (parse text').directives.map Directive.entry =
      (others ++ { d with value := [c] } :: behind).map Directive.entry := by
    rw [h, List.map_append, List.map_cons]
    rfl
  have hdeclared : Directive.escapeChar? { d with value := [c] } = some c := by
    rw [Directive.escapeChar?, if_pos (show Directive.isEscape { d with value := [c] } = true from
      hescape)]
    rcases hc with rfl | rfl <;> rfl
  have hselected : selectedEscape? (parse text').directives = some c := by
    have hnone := selectedEscape?_eq_none hothers
    rw [selectedEscape?] at hnone
    rw [selectedEscape?_congr hsame, selectedEscape?, List.findSome?_append, hnone, Option.none_or,
      List.findSome?_cons, hdeclared]
  refine ⟨?_, ?_, ?_⟩
  · rw [File.escape, escapeUnder, hselected]
    rfl
  · rw [declaresEscape, hselected]
    rfl
  · have hrevalued : Directive.isEscape { d with value := [c] } = true := hescape
    rw [others_congr hsame, hfound, List.filter_append, List.filter_append, List.filter_cons,
      List.filter_cons, hescape, hrevalued]
    rfl

/-- Without the only escape directive nothing is declared. -/
theorem not_redeclares {c : Char} {text' : Text} (h : (parse text').directives = others) :
    ¬(parse text).Redeclares c (parse text') := by
  intro hredeclares
  have hdeclared := hredeclares.declared
  rw [declaresEscape, h, selectedEscape?_eq_none (no_escape_around honly hfound).2.1] at hdeclared
  cases hdeclared

end Only

end File

namespace Analysis

theorem exists_invalidEscape {text : Text} {settings : Settings} {d : Diagnostic}
    (hd : d ∈ (analyze text settings).diagnostics) (hcode : d.code = .invalidEscapeDirective) :
    ∃ directive ∈ (File.parse text).directives, directive.isEscape = true ∧
      d.span = Text.widen text directive.valueSpan ∧ d.range = Text.rangeOf text d.span := by
  obtain ⟨f, hf, hreport⟩ := mem_diagnostics_iff.mp hd
  obtain ⟨severity, -, rfl⟩ := Option.map_eq_some_iff.mp hreport
  have hcode : f.problem.code = .invalidEscapeDirective := hcode
  rcases Check.offered_of_file hf (by rw [hcode]; decide) with
    ⟨directive, hmem, hf⟩ | ⟨inst, -, hf | ⟨hproblem, -⟩⟩
  · unfold Check.directive at hf
    rcases List.mem_append.mp hf with hf | hf
    · split at hf
      · cases List.mem_singleton.mp hf
        cases hcode
      · cases hf
    · split at hf
      · cases List.mem_singleton.mp hf
        cases hcode
      · split at hf
        · rename_i hinvalid
          cases List.mem_singleton.mp hf
          exact ⟨directive, hmem, (Bool.and_eq_true_iff.mp hinvalid).1, rfl, rfl⟩
        · cases hf
  · have hsubject := Check.instruction_subject inst f hf
    rw [hcode] at hsubject
    rcases hsubject with hsubject | hsubject <;> cases hsubject
  · rw [hproblem] at hcode
    cases hcode

end Analysis

/-- If a text has one escape directive and its value is reported, then the fix makes the file declare
the character that was chosen, and leaves the other directives as they are, unless the report shows
the equals sign. -/
theorem escape_declared_iff (text : Text) (settings : Settings) {d : Diagnostic}
    (hd : d ∈ (analyze text settings).diagnostics) (hcode : d.code = .invalidEscapeDirective)
    {directive : Directive}
    (honly : (File.parse text).directives.filter Directive.isEscape = [directive])
    {c : Char} (hc : c = '\\' ∨ c = '\x60') (target : FixTarget) (hrange : target.range = d.range)
    (hvalue : target.value = some (String.singleton c)) :
    ∃ edit, target.edit? (analyze text settings) Fix.escapeDirective.command =
        some ⟨target.uri, [edit]⟩ ∧
      ((File.parse text).Redeclares c (File.parse (TextEdit.apply text edit)) ↔
        ¬(directive.value = [] ∧ Text.slice text d.span = ['='])) := by
  have hreplacement : ∀ span, Fix.replacement? (analyze text settings) span target.value
      .escapeDirective = some (span, [c]) := by
    intro span
    rw [hvalue]
    rcases hc with rfl | rfl <;> rfl
  refine ⟨_, FixTarget.edit?_of_replacement? (hreplacement _), ?_⟩
  obtain ⟨e, hmem, hescape, hspan, hd⟩ := Analysis.exists_invalidEscape hd hcode
  obtain rfl : e = directive := by
    have := List.mem_filter.mpr ⟨hmem, hescape⟩
    rwa [honly, List.mem_singleton] at this
  have hclean : isBlank c = false ∧ isLineBreak c = false ∧ c ≠ '=' := by
    rcases hc with rfl | rfl <;> decide
  rw [show (analyze text settings).text = text from rfl, hrange, hd, hspan]
  by_cases hmissing : e.value = []
  · obtain ⟨hfound, hreplaced⟩ := File.replaced_of_missing hmem hmissing
    obtain ⟨hrevalues, hundone⟩ := hreplaced hclean.1 hclean.2.1
    rw [hfound, TextEdit.apply_of_found hfound]
    by_cases hequals : Text.slice text (Text.widen text e.valueSpan) = ['=']
    · obtain ⟨others, behind, hdirectives, hothers⟩ := hundone hequals hclean.2.2
      exact iff_of_false (File.not_redeclares honly hdirectives hothers)
        (not_not.mpr ⟨hmissing, hequals⟩)
    · obtain ⟨others, behind, hdirectives, hentries⟩ := (hrevalues hequals).directives
      exact iff_of_true (File.redeclares_of_value honly hdirectives hc hentries)
        fun hequals' => hequals hequals'.2
  · obtain ⟨hne, hfound, hrevalues⟩ := File.revalues_of_value hmem hmissing
    have hwiden := Text.widen_of_wellPlaced (Directive.readAll_within hmem).value hne
    obtain ⟨others, behind, hdirectives, hentries⟩ := (hrevalues hclean.1 hclean.2.1).directives
    rw [hwiden, hfound, TextEdit.apply_of_found hfound]
    exact iff_of_true (File.redeclares_of_value honly hdirectives hc hentries)
      fun hequals => hmissing hequals.1

/-- A backtick is put in the place of `x`, and the syntax directive is kept. -/
theorem escape_declared_backtick :
    let text := "# escape=x\n# syntax=b\nFROM a".toList
    ∃ d ∈ (analyze text {}).diagnostics, d.code = .invalidEscapeDirective ∧
      ∃ edit, (⟨"file:///D", d.range, some "`"⟩ : FixTarget).edit? (analyze text {})
          Fix.escapeDirective.command = some ⟨"file:///D", [edit]⟩ ∧
        (File.parse text).Redeclares '\x60' (File.parse (TextEdit.apply text edit)) := by
  intro text
  have hreported : ((analyze text {}).findings.filterMap (Diagnostic.ofFinding? text {})).any
      (fun d => decide (d.code = .invalidEscapeDirective)) = true := by
    decide +kernel
  obtain ⟨d, hd, hcode⟩ := List.any_eq_true.mp hreported
  have hd := (Analysis.diagnostics_perm text {}).mem_iff.mpr hd
  have hcode := of_decide_eq_true hcode
  obtain ⟨directive, honly⟩ := List.length_eq_one_iff.mp
    (by decide +kernel : ((File.parse text).directives.filter Directive.isEscape).length = 1)
  have hvalues : ∀ e ∈ (File.parse text).directives.filter Directive.isEscape, e.value ≠ [] := by
    decide +kernel
  have hvalue := hvalues directive (honly ▸ List.mem_singleton_self _)
  obtain ⟨edit, hedit, hiff⟩ := escape_declared_iff text {} hd hcode honly (c := '\x60') (.inr rfl)
    ⟨"file:///D", d.range, some "`"⟩ rfl rfl
  exact ⟨d, hd, hcode, edit, hedit, hiff.mpr fun hequals => hvalue hequals.1⟩

/-- A backslash is put in the place of the equals sign, and nothing is declared. -/
theorem escape_declared_equals :
    let text := "# escape=\nFROM a".toList
    ((File.parse text).directives.filter Directive.isEscape).length = 1 ∧
      ∃ d ∈ (analyze text {}).diagnostics, d.code = .invalidEscapeDirective ∧
        ∃ w, (⟨"file:///D", d.range, some "\\"⟩ : FixTarget).edit? (analyze text {})
            Fix.escapeDirective.command = some w ∧
          ¬(File.parse text).Redeclares '\\' (File.parse (TextEdit.applyAll text w.edits)) := by
  intro text
  have hfixed : ((analyze text {}).findings.filterMap (Diagnostic.ofFinding? text {})).any
      (fun d => decide (d.code = .invalidEscapeDirective) &&
        ((⟨"file:///D", d.range, some "\\"⟩ : FixTarget).edit? (analyze text {})
          Fix.escapeDirective.command).any fun w =>
            !(File.parse (TextEdit.applyAll text w.edits)).declaresEscape) = true := by
    decide +kernel
  obtain ⟨d, hd, hfixed⟩ := List.any_eq_true.mp hfixed
  obtain ⟨hcode, hfixed⟩ := Bool.and_eq_true_iff.mp hfixed
  obtain ⟨w, hw, hundeclared⟩ := (Option.any_eq_true _ _).mp hfixed
  refine ⟨by decide +kernel, d, (Analysis.diagnostics_perm text {}).mem_iff.mpr hd,
    of_decide_eq_true hcode, w, hw, fun hredeclares => ?_⟩
  rw [hredeclares.declared] at hundeclared
  cases hundeclared

end Dockerfile
