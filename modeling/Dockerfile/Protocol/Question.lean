import Dockerfile.Editor.Layout
import Dockerfile.Protocol.Report
import Dockerfile.Registry

/-!
# Questions

What an editor asks about one document. The answer depends on an analysis of the document, on how it
is to be formatted and on the tags of one repository, and on nothing else.
-/

namespace Dockerfile

inductive Question where
  | hover (position : Position)
  | completion (position : Position)
  | definition (position : Position)
  | references (position : Position) (withDeclarations : Bool)
  | highlights (position : Position)
  | renameTarget (position : Position)
  | rename (position : Position) (newName : Text)
  | diagnostics
  | outline
  | folds
  | links
  | tokens
  | format (options : IndentOptions)
  | formatRange (range : Range) (options : IndentOptions)
  | formatOnType (position : Position) (typed : Text) (options : IndentOptions)
  | mend (command : String) (target : FixTarget)
  deriving DecidableEq, Repr

namespace Json

def nonEmpty (encode : α → Json) (items : List α) : Json :=
  if items.isEmpty then null else ofList encode items

def location (uri : String) (range : Range) : Json :=
  object [("uri", string uri), ("range", range.toJson)]

def fullReport (reports : List Report) : Json :=
  object [("kind", string "full"), ("items", ofList Report.toJson reports)]

end Json

namespace Analysis

def completionItems (a : Analysis) (tags : List Text) (position : Position) :
    List CompletionItem :=
  let plan := a.completion position
  match plan.query with
  | none => plan.items
  | some query => plan.items ++ query.items (Registry.filterTags tags query.asked)

end Analysis

namespace Question

def needsFormatter : Question → Bool
  | format _ | formatRange _ _ | formatOnType _ _ _ => true
  | _ => false

def repository? (a : Analysis) : Question → Option Text
  | completion position =>
      (a.completion position).query.bind fun query => Registry.repository? query.repository
  | _ => none

def answer (tags : List Text) (uri : String) (formatter : FormatterSettings) (a : Analysis) :
    Question → Json
  | hover position => .ofOption Hover.toJson (a.hover? position)
  | completion position => .nonEmpty CompletionItem.toJson (a.completionItems tags position)
  | definition position => .ofOption (Json.location uri) (a.definition? position)
  | references position withDeclarations =>
      .nonEmpty (Json.location uri) (a.references position withDeclarations)
  | highlights position => .nonEmpty Highlight.toJson (a.highlights position)
  | renameTarget position => .ofOption RenameTarget.toJson (a.renameTarget? position)
  | rename position newName =>
      .ofOption WorkspaceEdit.toJson ((a.rename? position newName).map fun edits => ⟨uri, edits⟩)
  | diagnostics => .fullReport a.reports
  | outline => .nonEmpty OutlineNode.toJson a.outline
  | folds => .nonEmpty Fold.toJson a.folds
  | links => .nonEmpty Link.toJson a.links
  | tokens => .object [("data", .ofList .nat (a.tokens.flatMap TokenDelta.numbers))]
  | format options => .ofList TextEdit.toJson (a.format options formatter)
  | formatRange range options => .ofList TextEdit.toJson (a.formatRange range options formatter)
  | formatOnType position typed options =>
      .nonEmpty TextEdit.toJson (a.formatOnType position typed options formatter)
  | mend _ _ => .null

/-- The answer if the document is not open. -/
def unopened : Question → Json
  | diagnostics => .fullReport []
  | _ => .null

def edit? (a : Analysis) : Question → Option WorkspaceEdit
  | mend command target => target.edit? a command
  | _ => none

end Question

end Dockerfile
