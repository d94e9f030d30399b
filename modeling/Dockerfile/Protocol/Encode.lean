import Dockerfile.Editor.Completion
import Dockerfile.Editor.Folding
import Dockerfile.Editor.Highlighting
import Dockerfile.Editor.Hover
import Dockerfile.Editor.Link
import Dockerfile.Editor.Navigation
import Dockerfile.Editor.Outline
import Dockerfile.Editor.QuickFix
import Dockerfile.Json.Record

/-!
# Values sent to an editor

How the things an editor asks for are written in JSON. A field without a value is left out.
-/

namespace Dockerfile

def sourceName : String :=
  "dockerls"

namespace Json

def text (t : Text) : Json :=
  string (String.ofList t)

def optionalField (key : String) (encode : α → Json) (value : Option α) : List (String × Json) :=
  (value.map fun v => (key, encode v)).toList

end Json

namespace Position

def toJson (p : Position) : Json :=
  .object [("line", .nat p.line), ("character", .nat p.character)]

def ofJson? (json : Json) : Option Position := do
  match ← json.strictRecord? ["line", "character"] with
  | [line, character] =>
      return ⟨← Json.required (Json.nat? 32) line, ← Json.required (Json.nat? 32) character⟩
  | _ => none

end Position

namespace Range

def toJson (r : Range) : Json :=
  .object [("start", r.start.toJson), ("end", r.stop.toJson)]

def ofJson? (json : Json) : Option Range := do
  match ← json.strictRecord? ["start", "end"] with
  | [start, stop] =>
      return ⟨← Json.required Position.ofJson? start, ← Json.required Position.ofJson? stop⟩
  | _ => none

end Range

namespace TextEdit

def toJson (e : TextEdit) : Json :=
  .object [("range", e.range.toJson), ("newText", .text e.newText)]

end TextEdit

namespace WorkspaceEdit

def toJson (e : WorkspaceEdit) : Json :=
  .object [("changes", .object [(e.uri, .ofList TextEdit.toJson e.edits)])]

end WorkspaceEdit

def Json.markdown (value : String) : Json :=
  .object [("kind", .string "markdown"), ("value", .string value)]

namespace OutlineKind

/-- The number under which editors know the kind. -/
def code : OutlineKind → Nat
  | stage => 3
  | var => 13
  | label => 7
  | instruction => 12

end OutlineKind

namespace OutlineEntry

def fields (e : OutlineEntry) : List (String × Json) :=
  [("name", .text e.name), ("detail", .text e.detail), ("kind", .nat e.kind.code),
   ("range", e.range.toJson), ("selectionRange", e.selection.toJson)]

def toJson (e : OutlineEntry) : Json :=
  .object e.fields

end OutlineEntry

namespace OutlineNode

def toJson : OutlineNode → Json
  | leaf entry => entry.toJson
  | stage entry children =>
      .object (entry.fields ++ [("children", .ofList OutlineEntry.toJson children)])

end OutlineNode

namespace TokenDelta

def numbers (d : TokenDelta) : List Nat :=
  [d.deltaLine, d.deltaStart, d.length, d.type.code, d.modifier.code]

end TokenDelta

namespace Fold

def toJson (f : Fold) : Json :=
  let kind := match f.kind with
    | .comment => "comment"
    | .region => "region"
  .object [("startLine", .nat f.startLine), ("endLine", .nat f.stopLine), ("kind", .string kind)]

end Fold

namespace Link

def toJson (l : Link) : Json :=
  .object [("range", l.range.toJson), ("target", .text l.target), ("tooltip", .string l.tooltip)]

end Link

namespace Hover

def toJson (h : Hover) : Json :=
  .object [("contents", .markdown h.contents), ("range", h.range.toJson)]

end Hover

namespace Highlight

/-- Writes a mark: declarations are written to, other occurrences read. -/
def toJson (h : Highlight) : Json :=
  .object [("range", h.range.toJson), ("kind", .nat (if h.isDeclaration then 3 else 2))]

end Highlight

namespace RenameTarget

def toJson (t : RenameTarget) : Json :=
  .object [("range", t.range.toJson), ("placeholder", .text t.placeholder)]

end RenameTarget

namespace CompletionKind

/-- The number under which editors know the kind. -/
def code : CompletionKind → Nat
  | directive => 10
  | keyword => 14
  | var => 6
  | predefined => 21
  | flag => 5
  | stage => 18
  | tag => 12

end CompletionKind

namespace CompletionItem

def toJson (i : CompletionItem) : Json :=
  .object ([("label", .text i.label), ("kind", .nat i.kind.code)] ++
    Json.optionalField "detail" .text i.detail ++
    Json.optionalField "documentation" .markdown i.documentation ++
    Json.optionalField "sortText" .text i.sortText ++
    [("textEdit", i.edit.toJson)])

end CompletionItem

end Dockerfile
