import Dockerfile.Buffer
import Dockerfile.Protocol.Question

/-!
# Parameters

How the parameters of a message are read. Parameters that combine several parts have to be an
object; unknown keys are ignored. Parameters that lack a part, or have one of another form, are
malformed as a whole.
-/

namespace Dockerfile

namespace Params

def need (key : String) (read : Json → Option α) (params : Json) : Option α :=
  Json.required read (params.field? key)

/-- Reads a part that may be missing or `null`. -/
def maybe (key : String) (read : Json → Option α) (params : Json) : Option (Option α) :=
  Json.optional read (params.field? key)

def identifier? (json : Json) : Option String := do
  match ← json.strictRecord? ["uri"] with
  | [uri] => Json.required Report.uri? uri
  | _ => none

def document? : Json → Option String :=
  need "textDocument" identifier?

def position? : Json → Option Position :=
  need "position" Position.ofJson?

def range? : Json → Option Range :=
  need "range" Range.ofJson?

/-- Parameters that combine parts: an object whose tokens of progress, of those keys it may have, are
numbers or strings. -/
def combined? (tokens : List String) : Json → Option Json
  | .object fields => do
      let _ ← tokens.mapM fun key => maybe key Report.code? (.object fields)
      return .object fields
  | _ => none

def workToken : String :=
  "workDoneToken"

def partialToken : String :=
  "partialResultToken"

def place? (params : Json) : Option (String × Position) := do
  return (← document? params, ← position? params)

/-- Reads a value an editor may attach to its options. -/
def property? : Json → Option Unit
  | .bool _ | .string _ => some ()
  | json => (Json.int32? json).map fun _ => ()

/-- The options of a formatter that have a meaning of their own, all truth values. -/
def formatterFlags : List String :=
  ["trimTrailingWhitespace", "insertFinalNewline", "trimFinalNewlines"]

def options? : Json → Option IndentOptions
  | .object fields => do
      let options := Json.object fields
      let tabSize ← need "tabSize" (Json.nat? 32) options
      let insertSpaces ← need "insertSpaces" Json.bool? options
      let _ ← formatterFlags.mapM fun key => maybe key Json.bool? options
      let known := "tabSize" :: "insertSpaces" :: formatterFlags
      let _ ← (fields.filter fun f => !known.contains f.1).mapM fun f => property? f.2
      return ⟨tabSize, insertSpaces⟩
  | _ => none

def change? (json : Json) : Option Change := do
  match ← json.strictRecord? ["range", "rangeLength", "text"] with
  | [range, length, text] =>
      let range ← Json.optional Range.ofJson? range
      let _ ← Json.optional (Json.nat? 32) length
      let text ← Json.required Json.string? text
      return ⟨range, text.toList⟩
  | _ => none

end Params

end Dockerfile
