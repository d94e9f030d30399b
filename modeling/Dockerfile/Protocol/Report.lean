import Dockerfile.Protocol.Encode

/-!
# Reports

A report is a diagnostic as it is exchanged with an editor. An editor sends reports back to ask what
can be done about them; those of other tools, and those without a known code, are passed over.
-/

namespace Dockerfile

/-- The code of a report: editors also know numbers. -/
inductive ReportCode where
  | number (value : Int)
  | name (value : String)
  deriving DecidableEq, Repr

structure RelatedPlace where
  uri : String
  range : Range
  message : String
  deriving DecidableEq, Repr

structure Report where
  range : Range
  severity : Option Int := none
  code : Option ReportCode := none
  /-- The address of a description of the code. -/
  description : Option String := none
  source : Option String := none
  message : String
  related : Option (List RelatedPlace) := none
  tags : Option (List Int) := none
  /-- Whatever the sender attached. -/
  data : Option Json := none

/-- Something an editor can offer: a title, and the command behind it. -/
structure CodeAction where
  offer : FixOffer
  uri : String
  report : Report

namespace Severity

/-- The number under which editors know the severity. -/
def code : Severity → Int
  | error => 1
  | warning => 2

end Severity

namespace Code

/-- The tags of a code, if it has any: one for what has no effect, two for what is deprecated. -/
def tags (code : Code) : Option (List Int) :=
  if code.isDeprecation then some [2]
  else if code.isUnnecessary then some [1]
  else none

end Code

namespace Report

def ofDiagnostic (d : Diagnostic) : Report where
  range := d.range
  severity := some d.severity.code
  code := some (.name d.code.name)
  source := some sourceName
  message := d.message
  tags := d.code.tags

def uri? (json : Json) : Option String :=
  json.string?.bind fun s => (Url.normalize? s.toList).map String.ofList

def code? (json : Json) : Option ReportCode :=
  match json.int32? with
  | some n => some (.number n)
  | none => json.string?.map .name

def description? (json : Json) : Option String := do
  match ← json.strictRecord? ["href"] with
  | [href] => Json.required uri? href
  | _ => none

def related? (json : Json) : Option RelatedPlace := do
  match ← json.strictRecord? ["location", "message"] with
  | [some location, message] =>
      match ← location.strictRecord? ["uri", "range"] with
      | [uri, range] =>
          return ⟨← Json.required uri? uri, ← Json.required Range.ofJson? range,
            ← Json.required Json.string? message⟩
      | _ => none
  | _ => none

def fieldNames : List String :=
  ["range", "severity", "code", "codeDescription", "source", "message", "relatedInformation",
   "tags", "data"]

def ofJson? (json : Json) : Option Report := do
  match ← json.strictRecord? fieldNames with
  | [range, severity, code, description, source, message, related, tags, data] =>
      return {
        range := ← Json.required Range.ofJson? range
        severity := ← Json.optional Json.int32? severity
        code := ← Json.optional code? code
        description := ← Json.optional description? description
        source := ← Json.optional Json.string? source
        message := ← Json.required Json.string? message
        related := ← Json.optional (Json.listOf related?) related
        tags := ← Json.optional (Json.listOf Json.int32?) tags
        data := ← Json.optional some data }
  | _ => none

def ofInt (n : Int) : Json :=
  .number n 0

def relatedToJson (r : RelatedPlace) : Json :=
  .object [("location", .object [("uri", .string r.uri), ("range", r.range.toJson)]),
    ("message", .string r.message)]

def codeToJson : ReportCode → Json
  | .number n => ofInt n
  | .name s => .string s

def toJson (r : Report) : Json :=
  .object ([("range", r.range.toJson)] ++
    Json.optionalField "severity" ofInt r.severity ++
    Json.optionalField "code" codeToJson r.code ++
    Json.optionalField "codeDescription" (fun href => .object [("href", .string href)])
      r.description ++
    Json.optionalField "source" .string r.source ++
    [("message", .string r.message)] ++
    Json.optionalField "relatedInformation" (Json.ofList relatedToJson) r.related ++
    Json.optionalField "tags" (Json.ofList ofInt) r.tags ++
    Json.optionalField "data" id r.data)

def ownCode? (r : Report) : Option Code :=
  if r.source = some sourceName then
    match r.code with
    | some (.name name) => Code.ofName? name
    | _ => none
  else none

def actions (uri : String) (r : Report) : List CodeAction :=
  match r.ownCode? with
  | some code => (Fix.offers code).map fun offer => ⟨offer, uri, r⟩
  | none => []

end Report

/-- The document, the range and the value that a command is called with. -/
structure FixTarget where
  uri : String
  range : Range
  value : Option String
  deriving DecidableEq, Repr

namespace FixTarget

def ofArguments? : List Json → Option FixTarget
  | uri :: range :: rest => do
      return ⟨← Report.uri? uri, ← Range.ofJson? range, rest.head?.bind Json.string?⟩
  | _ => none

def arguments (t : FixTarget) : List Json :=
  [.string t.uri, t.range.toJson] ++ t.value.toList.map .string

def edit? (a : Analysis) (command : String) (t : FixTarget) : Option WorkspaceEdit := do
  let fix ← Fix.ofCommand? command
  let edit ← fix.edit? a t.range t.value
  return ⟨t.uri, [edit]⟩

end FixTarget

namespace CodeAction

def target (action : CodeAction) : FixTarget :=
  ⟨action.uri, action.report.range, action.offer.value⟩

def toJson (action : CodeAction) : Json :=
  let title := Json.string action.offer.title
  .object [("title", title), ("kind", .string "quickfix"),
    ("diagnostics", .array [action.report.toJson]),
    ("command", .object [("title", title), ("command", .string action.offer.fix.command),
      ("arguments", .array action.target.arguments)])]

end CodeAction

namespace Analysis

def reports (a : Analysis) : List Report :=
  a.diagnostics.map Report.ofDiagnostic

end Analysis

end Dockerfile
