import Dockerfile.Protocol.Question
import Dockerfile.Proofs.Checked.Check
import Dockerfile.Proofs.Checked.Completion
import Dockerfile.Proofs.Checked.File
import Dockerfile.Proofs.Checked.Highlighting
import Dockerfile.Proofs.Checked.Editing
import Dockerfile.Proofs.Checked.Outline

/-!
# Analyses, access by access

A text is parsed, its tables are filled and it is checked, and then an editor may ask anything about
it. The tables of a text only refer to entries that are there (`Checked.Resolved`), and all that is
found in a text has its place between boundaries of characters (`Instruction.Within`). No access of
the analysis or of an answer needs more (`analyze_faultless`).
-/

namespace Dockerfile

namespace Question

/-- What an answer tells, before it is written down. -/
def Result : Question → Type
  | hover _ => Option Hover
  | completion _ => CompletionPlan
  | definition _ => Option Range
  | references _ _ => List Range
  | highlights _ => List Highlight
  | renameTarget _ => Option RenameTarget
  | rename _ _ => Option (List TextEdit)
  | diagnostics => List Report
  | outline => List OutlineNode
  | folds => List Fold
  | links => List Link
  | tokens => List TokenDelta
  | format _ | formatRange _ _ | formatOnType _ _ _ => List TextEdit
  | mend _ _ => Option WorkspaceEdit

def result (formatter : FormatterSettings) (a : Analysis) : (question : Question) → question.Result
  | hover position => a.hover? position
  | completion position => a.completion position
  | definition position => a.definition? position
  | references position withDeclarations => a.references position withDeclarations
  | highlights position => a.highlights position
  | renameTarget position => a.renameTarget? position
  | rename position newName => a.rename? position newName
  | diagnostics => a.reports
  | outline => a.outline
  | folds => a.folds
  | links => a.links
  | tokens => a.tokens
  | format options => a.format options formatter
  | formatRange range options => a.formatRange range options formatter
  | formatOnType position typed options => a.formatOnType position typed options formatter
  | mend command target => target.edit? a command

end Question

namespace Checked

def analyze (text : Text) (settings : Settings) : Checked Analysis := do
  let file ← parse text
  let scopes ← tables file.instructions
  return ⟨text, file, scopes, ← diagnostics text file scopes settings⟩

def result (formatter : FormatterSettings) (a : Analysis) :
    (question : Question) → Checked question.Result
  | .hover position => hover? a position
  | .completion position => completion a position
  | .definition position => definition? a position
  | .references position withDeclarations => referencesTo a position withDeclarations
  | .highlights position => highlights a position
  | .renameTarget position => renameTarget? a position
  | .rename position newName => rename? a position newName
  | .diagnostics => .ok (a.diagnostics.map Report.ofDiagnostic)
  | .outline => outline a
  | .folds => folds a
  | .links => links a
  | .tokens => tokens a
  | .format options => format a options formatter
  | .formatRange range options => formatRange a range options formatter
  | .formatOnType position typed options => formatOnType a position typed options formatter
  | .mend command target => commandEdit? a command target

/-- What can be done about reports that an editor sends back. Only their codes are looked at. -/
def actions (uri : String) (reports : List Report) : Checked (List CodeAction) :=
  flatMap (fun report =>
    match report.ownCode? with
    | some code => return (Fix.offers code).map fun offer => ⟨offer, uri, report⟩
    | none => return []) reports

theorem analyze_eq (text : Text) (settings : Settings) :
    analyze text settings = .ok (Dockerfile.analyze text settings) := by
  simp only [analyze, parse_eq, tables_eq, diagnostics_eq, ok_bind, pure_eq]
  rfl

theorem result_eq (formatter : FormatterSettings) {a : Analysis} (hresolved : Resolved a.scopes)
    (hwithin : ∀ inst ∈ a.file.instructions, inst.Within a.text) (question : Question) :
    result formatter a question = .ok (question.result formatter a) := by
  cases question with
  | hover position => exact hover?_eq hresolved hwithin position
  | completion position => exact completion_eq hwithin position
  | definition position => exact definition?_eq hresolved position
  | references position withDeclarations => exact referencesTo_eq hresolved position withDeclarations
  | highlights position => exact highlights_eq hresolved position
  | renameTarget position => exact renameTarget?_eq hresolved position
  | rename position newName => exact rename?_eq hresolved position newName
  | diagnostics => rfl
  | outline => exact outline_eq a
  | folds => exact folds_eq a
  | links => exact links_eq a
  | tokens => exact tokens_eq hwithin
  | format options => exact format_eq a options formatter
  | formatRange range options => exact formatRange_eq a range options formatter
  | formatOnType position typed options => exact formatOnType_eq a position typed options formatter
  | mend command target => exact commandEdit?_eq hwithin command target

theorem actions_eq (uri : String) (reports : List Report) :
    actions uri reports = .ok (reports.flatMap (Report.actions uri)) :=
  flatMap_eq fun report _ => by
    unfold Report.actions
    cases report.ownCode? <;> rfl

end Checked

/-- Whatever a text, settings and questions are, every access is possible: the analysis, the answers
and the offers are computed without a fault, and are what they are said to be. -/
theorem analyze_faultless (text : Text) (settings : Settings) :
    Checked.analyze text settings = .ok (analyze text settings) ∧
      (∀ formatter question, Checked.result formatter (analyze text settings) question =
        .ok (question.result formatter (analyze text settings))) ∧
      ∀ uri reports, Checked.actions uri reports = .ok (reports.flatMap (Report.actions uri)) := by
  have hresolved : Checked.Resolved (analyze text settings).scopes :=
    Checked.resolved_ofInstructions _
  have hwithin : ∀ inst ∈ (analyze text settings).file.instructions, inst.Within text :=
    fun inst hinst => File.instruction_within hinst
  exact ⟨Checked.analyze_eq text settings,
    fun formatter question => Checked.result_eq formatter hresolved hwithin question,
    Checked.actions_eq⟩

end Dockerfile
