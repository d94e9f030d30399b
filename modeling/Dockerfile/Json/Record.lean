import Dockerfile.Json.Basic

/-!
# Records in JSON

A record is written as an object, whose unknown keys are ignored, or as an array of its fields in
order, whose end may be missing. Anything else is malformed. A reader gives `none` for a malformed
value; a field that is missing is `none` inside `some`.
-/

namespace Dockerfile

namespace Json

def record? (names : List String) : Json → Option (List (Option Json))
  | array items =>
      if items.length ≤ names.length then
        some (items.map some ++ List.replicate (names.length - items.length) none)
      else none
  | object fields => some (names.map fun name => (object fields).field? name)
  | _ => none

def strictRecord? (names : List String) (json : Json) : Option (List (Option Json)) :=
  match json with
  | array items => if items.length = names.length then record? names json else none
  | _ => record? names json

/-- Reads a field, or takes `default` if it is missing. -/
def orDefault (read : Json → Option α) (default : α) : Option Json → Option α
  | none => some default
  | some json => read json

def nullable (read : Json → Option α) : Json → Option (Option α)
  | null => some none
  | json => (read json).map some

def optional (read : Json → Option α) : Option Json → Option (Option α)
  | none => some none
  | some json => nullable read json

def required (read : Json → Option α) : Option Json → Option α
  | none => none
  | some json => read json

def listOf (read : Json → Option α) (json : Json) : Option (List α) :=
  json.array?.bind fun items => items.mapM read

end Json

end Dockerfile
