import Dockerfile.Json.Form
import Dockerfile.Protocol.Params

/-!
# Forms of what editors send

The forms of the values that editors send with requests that this server does not fulfil. They are
checked all the same: such a request is told apart from one that is malformed. Kinds, tags and other
enumerations are numbers, and any number of 32 bits will do. The methods that are declined are those
that editors know and that this server does not offer (`Form.declined`).
-/

namespace Dockerfile

namespace Form

def address : Form :=
  read Report.uri?

def isAddress (key : String) : Bool :=
  address (.string key)

def position : Form :=
  read Position.ofJson?

def range : Form :=
  read Range.ofJson?

def document : Form :=
  read Params.identifier?

def location : Form :=
  record [need "uri" address, need "range" range]

def work : Field :=
  may Params.workToken (read Report.code?)

def progress : Field :=
  may Params.partialToken (read Report.code?)

def markup : Form :=
  record [need "kind" (oneOf ["plaintext", "markdown"]), need "value" text]

def prose : Form :=
  either text markup

def command : Form :=
  record [need "title" text, need "command" text, may "arguments" (list any)]

def edit : Form :=
  record [need "range" range, need "newText" text]

def insertOrReplace : Form :=
  record [need "newText" text, need "insert" range, need "replace" range]

def documentEdit : Form :=
  record [
    need "textDocument" (record [need "uri" address, may "version" int32]),
    need "edits" (list edit)]

def overwriting : Form :=
  record [may "overwrite" truth, may "ignoreIfExists" truth]

def deleting : Form :=
  record [may "recursive" truth, may "ignoreIfNotExists" truth, may "annotationId" text]

def fileOperation : Form :=
  variants "kind" [
    ⟨"create", [need "uri" address, may "options" overwriting, may "annotationId" text]⟩,
    ⟨"rename", [need "oldUri" address, need "newUri" address, may "options" overwriting,
      may "annotationId" text]⟩,
    ⟨"delete", [need "uri" address, may "options" deleting]⟩]

def annotation : Form :=
  record [need "label" text, may "needsConfirmation" truth, may "description" text]

def workspaceEdit : Form :=
  record [
    may "changes" (mapping isAddress (list edit)),
    may "documentChanges" (list (either fileOperation documentEdit)),
    may "changeAnnotations" (mapping (fun _ => true) annotation)]

/-- A parameter of a signature: its label is a text or a part of the label of the signature. -/
def parameter : Form :=
  record [need "label" (either text (pair nat32)), may "documentation" prose]

def signature : Form :=
  record [need "label" text, may "documentation" prose, may "parameters" (list parameter),
    may "activeParameter" nat32]

def shownSignatures : Form :=
  record [need "signatures" (list signature), may "activeSignature" nat32,
    may "activeParameter" nat32]

def signatureContext : Form :=
  record [need "triggerKind" int32, may "triggerCharacter" text, need "isRetrigger" truth,
    may "activeSignatureHelp" shownSignatures]

def hierarchyItem (tags : Form) : Form :=
  record [need "name" text, need "kind" int32, may "tags" tags, may "detail" text,
    need "uri" address, need "range" range, need "selectionRange" range, may "data" any]

def lens : Form :=
  record [need "range" range, may "command" command, may "data" any]

def link : Form :=
  record [need "range" range, may "target" address, may "tooltip" text, may "data" any]

def color : Form :=
  record [need "red" number, need "green" number, need "blue" number, need "alpha" number]

def haltContext : Form :=
  record [need "frameId" int32, need "stoppedLocation" range]

def hintPart : Form :=
  record [need "value" text, may "tooltip" prose, may "location" location, may "command" command]

def hint : Form :=
  record [need "position" position, need "label" (either text (list hintPart)), may "kind" int32,
    may "textEdits" (list edit), may "tooltip" prose, may "paddingLeft" truth,
    may "paddingRight" truth, may "data" any]

def completionItem : Form :=
  record [need "label" text,
    may "labelDetails" (record [may "detail" text, may "description" text]),
    may "kind" int32, may "detail" text, may "documentation" prose, may "deprecated" truth,
    may "preselect" truth, may "sortText" text, may "filterText" text, may "insertText" text,
    may "insertTextFormat" int32, may "insertTextMode" int32,
    may "textEdit" (either edit insertOrReplace), may "additionalTextEdits" (list edit),
    may "command" command, may "commitCharacters" (list text), may "data" any,
    may "tags" (list int32)]

def action : Form :=
  record [need "title" text, may "kind" text, may "diagnostics" (list (read Report.ofJson?)),
    may "edit" workspaceEdit, may "command" command, may "isPreferred" truth,
    may "disabled" (record [need "reason" text]), may "data" any]

/-- A symbol in any document; where exactly may be left open. -/
def workspaceSymbol : Form :=
  record [need "name" text, need "kind" int32, may "tags" (list int32), may "containerName" text,
    need "location" (either location document), may "data" any]

def files (fields : List Field) : Form :=
  record [need "files" (list (record fields))]

/-! ## Requests that are declined -/

def atPlace (fields : List Field) : Form :=
  object ([need "textDocument" document, need "position" position] ++ fields)

def inDocument (fields : List Field) : Form :=
  object (need "textDocument" document :: fields)

def inRange (fields : List Field) : Form :=
  inDocument (need "range" range :: fields)

def aboutItem (tags : Form) : Form :=
  object [need "item" (hierarchyItem tags), work, progress]

def declined : List (String × Form) :=
  [("textDocument/declaration", atPlace [work, progress]),
   ("textDocument/typeDefinition", atPlace [work, progress]),
   ("textDocument/implementation", atPlace [work, progress]),
   ("textDocument/prepareCallHierarchy", atPlace [work]),
   ("callHierarchy/incomingCalls", aboutItem (list int32)),
   ("callHierarchy/outgoingCalls", aboutItem (list int32)),
   ("textDocument/prepareTypeHierarchy", atPlace [work]),
   ("typeHierarchy/supertypes", aboutItem int32),
   ("typeHierarchy/subtypes", aboutItem int32),
   ("textDocument/moniker", atPlace [work, progress]),
   ("textDocument/signatureHelp", atPlace [work, may "context" signatureContext]),
   ("textDocument/linkedEditingRange", atPlace [work]),
   ("textDocument/codeLens", inDocument [work, progress]),
   ("codeLens/resolve", lens),
   ("documentLink/resolve", link),
   ("textDocument/documentColor", inDocument [work, progress]),
   ("textDocument/colorPresentation", inRange [need "color" color, work, progress]),
   ("textDocument/selectionRange",
     inDocument [need "positions" (list position), work, progress]),
   ("textDocument/semanticTokens/full/delta",
     inDocument [need "previousResultId" text, work, progress]),
   ("textDocument/semanticTokens/range", inRange [work, progress]),
   ("textDocument/inlineValue", inRange [need "context" haltContext, work]),
   ("textDocument/inlayHint", inRange [work]),
   ("inlayHint/resolve", hint),
   ("textDocument/willSaveWaitUntil",
     record [need "textDocument" document, need "reason" int32]),
   ("completionItem/resolve", completionItem),
   ("codeAction/resolve", action),
   ("workspace/diagnostic",
     object [may "identifier" text,
       need "previousResultIds" (list (record [need "uri" address, need "value" text])),
       work, progress]),
   ("workspace/symbol", object [need "query" text, work, progress]),
   ("workspaceSymbol/resolve", workspaceSymbol),
   ("workspace/willCreateFiles", files [need "uri" text]),
   ("workspace/willRenameFiles", files [need "oldUri" text, need "newUri" text]),
   ("workspace/willDeleteFiles", files [need "uri" text])]

end Form

end Dockerfile
