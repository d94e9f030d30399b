import Dockerfile.Protocol.Incoming

/-!
# Messages to an editor

What the server sends: replies to requests, and requests and notifications of its own.
-/

namespace Dockerfile

inductive Outgoing where
  /-- The reply to the request of a number. -/
  | reply (id : Nat) (result : Except RequestError Json)
  | log (message : String)
  /-- Asks for the settings of one document, or those of all. -/
  | askConfiguration (scope : Option String)
  /-- Asks to show the progress of a validation. -/
  | createProgress (uri : String)
  | beginProgress (uri : String)
  | endProgress (uri : String)
  /-- All that there is to report about a document now. -/
  | publish (uri : String) (version : Option Int) (reports : List Report)
  /-- Asks to change a document. -/
  | applyEdit (edit : WorkspaceEdit)

namespace Outgoing

def progressToken (uri : String) : Json :=
  .string (sourceName ++ ":diag:" ++ uri)

def progress (uri : String) (value : List (String × Json)) : Json :=
  .object [("token", progressToken uri), ("value", .object value)]

def configurationItem (scope : Option String) : Json :=
  .object (Json.optionalField "scopeUri" .string scope ++
    [("section", .string Configuration.sectionName)])

def call? : Outgoing → Option (String × Json)
  | reply _ _ => none
  | log message =>
      some ("window/logMessage", .object [("type", .nat 3), ("message", .string message)])
  | askConfiguration scope =>
      some ("workspace/configuration", .object [("items", .array [configurationItem scope])])
  | createProgress uri =>
      some ("window/workDoneProgress/create", .object [("token", progressToken uri)])
  | beginProgress uri =>
      some ("$/progress", progress uri
        [("kind", .string "begin"), ("title", .string "Dockerfile: validating"),
         ("cancellable", .bool false), ("message", .string uri)])
  | endProgress uri =>
      some ("$/progress", progress uri
        [("kind", .string "end"), ("message", .string "Validation complete")])
  | publish uri version reports =>
      some ("textDocument/publishDiagnostics", .object ([("uri", .string uri),
        ("diagnostics", .ofList Report.toJson reports)] ++
        Json.optionalField "version" Report.ofInt version))
  | applyEdit edit => some ("workspace/applyEdit", .object [("edit", edit.toJson)])

def callToJson? (message : Outgoing) : Option Json :=
  message.call?.map fun call => .object [("method", .string call.1), ("params", call.2)]

def result? : Outgoing → Option (Except RequestError Json)
  | reply _ result => some result
  | _ => none

end Outgoing

namespace Capabilities

def strings (items : List String) : Json :=
  .ofList .string items

def resolvesNothing : String × Json :=
  ("resolveProvider", .bool false)

def all : Json :=
  .object [
    ("textDocumentSync", .nat 2),
    ("hoverProvider", .bool true),
    ("completionProvider", .object [resolvesNothing,
      ("triggerCharacters", strings ["$", "\x7b", "-", "=", ":", " "])]),
    ("documentSymbolProvider", .bool true),
    ("referencesProvider", .bool true),
    ("definitionProvider", .bool true),
    ("documentHighlightProvider", .bool true),
    ("renameProvider", .object [("prepareProvider", .bool true)]),
    ("diagnosticProvider", .object [("identifier", .string sourceName),
      ("interFileDependencies", .bool false), ("workspaceDiagnostics", .bool false)]),
    ("semanticTokensProvider", .object [
      ("legend", .object [("tokenTypes", strings TokenType.legend),
        ("tokenModifiers", strings TokenModifier.legend)]),
      ("range", .bool false), ("full", .bool true)]),
    ("codeActionProvider", .object [("codeActionKinds", strings ["quickfix"]), resolvesNothing]),
    ("executeCommandProvider", .object [("commands", strings (Fix.all.map Fix.command))]),
    ("documentFormattingProvider", .bool true),
    ("documentRangeFormattingProvider", .bool true),
    ("documentOnTypeFormattingProvider", .object [("firstTriggerCharacter", .string "\n")]),
    ("foldingRangeProvider", .bool true),
    ("documentLinkProvider", .object [resolvesNothing])]

def startResult : Json :=
  .object [("capabilities", all),
    ("serverInfo", .object [("name", .string "Dockerfile Language Server"),
      ("version", .string "0.1.0")])]

end Capabilities

end Dockerfile
