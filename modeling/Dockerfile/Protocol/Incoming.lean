import Dockerfile.Protocol.Form

/-!
# Messages from an editor

An editor sends requests, which are answered, and notifications, which are not. A request is refused
if its method is not known or its parameters are malformed; a notification is then ignored.
-/

namespace Dockerfile

inductive RequestError where
  | notInitialized
  | invalidRequest
  | methodNotFound
  | invalidParams
  deriving DecidableEq, Repr

/-- The number under which editors know the error. -/
def RequestError.code : RequestError → Int
  | notInitialized => -32002
  | invalidRequest => -32600
  | methodNotFound => -32601
  | invalidParams => -32602

inductive Request where
  /-- Begin; the editor says whether it can be asked for settings. -/
  | start (canConfigure : Bool)
  | shutdown
  | ask (uri : String) (question : Question)
  /-- What can be done about some reports. -/
  | actions (uri : String) (reports : List Report)
  /-- A command whose arguments name nothing to work on. -/
  | idleCommand
  /-- A method that exists but that this server does not offer. -/
  | unsupported

inductive Notification where
  | initialized
  | configurationChanged
  | opened (uri : String) (version : Int) (text : Text)
  | changed (uri : String) (version : Int) (changes : List Change)
  | closed (uri : String)
  deriving DecidableEq, Repr

namespace Request

open Params

/-- Reads whether the editor can be asked for settings. -/
def start? (params : Json) : Option Request := do
  let capabilities ← params.field? "capabilities"
  let can := capabilities.field? "workspace" |>.bind (Json.field? "configuration") |>.bind Json.bool?
  return .start (can.getD false)

def aboutDocument? (question : Question) (params : Json) : Option Request := do
  let params ← combined? [workToken, partialToken] params
  return .ask (← document? params) question

def aboutPlace? (tokens : List String) (question : Position → Question) (params : Json) :
    Option Request := do
  let (uri, position) ← place? (← combined? tokens params)
  return .ask uri (question position)

def renameTarget? (params : Json) : Option Request := do
  match ← params.strictRecord? ["textDocument", "position"] with
  | [document, position] =>
      return .ask (← Json.required identifier? document)
        (.renameTarget (← Json.required Position.ofJson? position))
  | _ => none

def completionContext? (json : Json) : Option Unit := do
  match ← json.strictRecord? ["triggerKind", "triggerCharacter"] with
  | [kind, character] =>
      let _ ← Json.required Json.int32? kind
      let _ ← Json.optional Json.string? character
      return ()
  | _ => none

def completion? (params : Json) : Option Request := do
  let _ ← maybe "context" completionContext? params
  aboutPlace? [workToken, partialToken] .completion params

def includeDeclaration? (json : Json) : Option Bool := do
  match ← json.strictRecord? ["includeDeclaration"] with
  | [included] => Json.required Json.bool? included
  | _ => none

def references? (params : Json) : Option Request := do
  let withDeclarations ← need "context" includeDeclaration? params
  aboutPlace? [workToken, partialToken] (fun position => .references position withDeclarations) params

def rename? (params : Json) : Option Request := do
  let newName ← need "newName" Json.string? params
  aboutPlace? [workToken] (fun position => .rename position newName.toList) params

def diagnostics? (params : Json) : Option Request := do
  let _ ← maybe "identifier" Json.string? params
  let _ ← maybe "previousResultId" Json.string? params
  aboutDocument? .diagnostics params

def format? (params : Json) : Option Request := do
  let params ← combined? [workToken] params
  return .ask (← document? params) (.format (← need "options" options? params))

/-- Reads a question for the layout of some lines. -/
def formatRange? (params : Json) : Option Request := do
  let params ← combined? [workToken] params
  return .ask (← document? params) (.formatRange (← range? params) (← need "options" options? params))

/-- Reads a question for the layout of a line just begun. -/
def formatOnType? (params : Json) : Option Request := do
  let (uri, position) ← place? (← combined? [] params)
  let typed ← need "ch" Json.string? params
  return .ask uri (.formatOnType position typed.toList (← need "options" options? params))

def actionContext? (json : Json) : Option (List Report) := do
  match ← json.strictRecord? ["diagnostics", "only", "triggerKind"] with
  | [reports, only, kind] =>
      let reports ← Json.required (Json.listOf Report.ofJson?) reports
      let _ ← Json.optional (Json.listOf Json.string?) only
      let _ ← Json.optional Json.int32? kind
      return reports
  | _ => none

def actions? (params : Json) : Option Request := do
  let params ← combined? [workToken, partialToken] params
  let _ ← range? params
  return .actions (← document? params) (← need "context" actionContext? params)

def command? (params : Json) : Option Request := do
  let params ← combined? [workToken] params
  let name ← need "command" Json.string? params
  let arguments ← Json.orDefault Json.array? [] (params.field? "arguments")
  match FixTarget.ofArguments? arguments with
  | some target => return .ask target.uri (.mend name target)
  | none => return .idleCommand

/-- The methods that this server offers, and how their parameters are read. -/
def offered : List (String × (Json → Option Request)) :=
  [("textDocument/hover", aboutPlace? [workToken] .hover),
   ("textDocument/completion", completion?),
   ("textDocument/codeAction", actions?),
   ("workspace/executeCommand", command?),
   ("textDocument/diagnostic", diagnostics?),
   ("textDocument/documentSymbol", aboutDocument? .outline),
   ("textDocument/definition", aboutPlace? [workToken, partialToken] .definition),
   ("textDocument/references", references?),
   ("textDocument/documentHighlight", aboutPlace? [workToken, partialToken] .highlights),
   ("textDocument/prepareRename", renameTarget?),
   ("textDocument/rename", rename?),
   ("textDocument/formatting", format?),
   ("textDocument/rangeFormatting", formatRange?),
   ("textDocument/onTypeFormatting", formatOnType?),
   ("textDocument/foldingRange", aboutDocument? .folds),
   ("textDocument/documentLink", aboutDocument? .links),
   ("textDocument/semanticTokens/full", aboutDocument? .tokens)]

/-- Reads the parameters of a method that is not offered, to see whether they are in order. -/
def decline? (form : Form) (params : Json) : Option Request :=
  if form params then some .unsupported else none

/-- The methods that exist but that this server does not offer. -/
def declined : List (String × (Json → Option Request)) :=
  Form.declined.map fun entry => (entry.1, decline? entry.2)

def reader? (method : String) : Option (Json → Option Request) :=
  (offered ++ declined).lookup method

end Request

namespace Notification

open Params

def opened? (params : Json) : Option Notification := do
  match ← params.strictRecord? ["textDocument"] with
  | [some document] =>
      match ← document.strictRecord? ["uri", "languageId", "version", "text"] with
      | [uri, language, version, text] =>
          let _ ← Json.required Json.string? language
          return .opened (← Json.required Report.uri? uri) (← Json.required Json.int32? version)
            (← Json.required Json.string? text).toList
      | _ => none
  | _ => none

def changed? (params : Json) : Option Notification := do
  match ← params.strictRecord? ["textDocument", "contentChanges"] with
  | [some document, changes] =>
      match ← document.strictRecord? ["uri", "version"] with
      | [uri, version] =>
          return .changed (← Json.required Report.uri? uri) (← Json.required Json.int32? version)
            (← Json.required (Json.listOf change?) changes)
      | _ => none
  | _ => none

def closed? (params : Json) : Option Notification := do
  match ← params.strictRecord? ["textDocument"] with
  | [document] => return .closed (← Json.required identifier? document)
  | _ => none

/-- Reads that settings changed; which ones is asked for later. -/
def configurationChanged? (params : Json) : Option Notification := do
  match ← params.strictRecord? ["settings"] with
  | [some _] => return .configurationChanged
  | _ => none

def initialized? (params : Json) : Option Notification := do
  let _ ← params.strictRecord? []
  return .initialized

def heeded : List (String × (Json → Option Notification)) :=
  [("initialized", initialized?),
   ("workspace/didChangeConfiguration", configurationChanged?),
   ("textDocument/didOpen", opened?),
   ("textDocument/didChange", changed?),
   ("textDocument/didClose", closed?)]

/-- The notifications that this server knows and does not heed. -/
def ignored : List String :=
  ["textDocument/willSave", "textDocument/didSave", "workspace/didChangeWorkspaceFolders",
   "workspace/didCreateFiles", "workspace/didRenameFiles", "workspace/didDeleteFiles",
   "workspace/didChangeWatchedFiles"]

/-- The notification that the reply to a request is no longer wanted. The reply is sent all the
same. -/
def cancelMethod : String :=
  "$/cancelRequest"

def isMethod (method : String) : Bool :=
  (heeded.map Prod.fst).contains method || ignored.contains method

def read? (method : String) (params : Option Json) : Option Notification := do
  let read ← heeded.lookup method
  read (← params)

end Notification

end Dockerfile
