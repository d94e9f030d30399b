/-!
# JSON values

The values that editors and configuration files exchange, and their printed forms. A number is kept
as written: a mantissa and the number of its decimal places.
-/

namespace Dockerfile

inductive Json where
  | null
  | bool (value : Bool)
  | number (mantissa : Int) (places : Nat)
  | string (value : String)
  | array (items : List Json)
  | object (fields : List (String × Json))
  deriving Inhabited

namespace Json

def nat (n : Nat) : Json :=
  number n 0

def ofOption (encode : α → Json) : Option α → Json
  | some value => encode value
  | none => null

def ofList (encode : α → Json) (items : List α) : Json :=
  array (items.map encode)

/-- The value under a key of an object; of several, the last. -/
def field? (key : String) : Json → Option Json
  | object fields => (fields.reverse.find? fun f => f.1 == key).map Prod.snd
  | _ => none

def string? : Json → Option String
  | string value => some value
  | _ => none

def bool? : Json → Option Bool
  | bool value => some value
  | _ => none

def array? : Json → Option (List Json)
  | array items => some items
  | _ => none

/-- The value of an integer between two bounds. A number with decimal places is not one. -/
def integer? (lower upper : Int) : Json → Option Int
  | number n 0 => if lower ≤ n ∧ n ≤ upper then some n else none
  | _ => none

/-- The value of a natural number of so many bits. -/
def nat? (bits : Nat) (json : Json) : Option Nat :=
  (json.integer? 0 ((1 <<< bits : Nat) - 1)).map Int.toNat

def int32? : Json → Option Int :=
  integer? (-0x80000000) 0x7FFFFFFF

def hexDigit (n : Nat) : Char :=
  Nat.digitChar n

def escapeChar (c : Char) : String :=
  if c = '"' then "\\\""
  else if c = '\\' then "\\\\"
  else if c = '\n' then "\\n"
  else if c = '\r' then "\\r"
  else if c = '\t' then "\\t"
  else if c = '\x08' then "\\b"
  else if c = '\x0c' then "\\f"
  else if c.toNat < 0x20 then
    String.ofList ['\\', 'u', '0', '0', hexDigit (c.toNat / 16), hexDigit (c.toNat % 16)]
  else String.singleton c

def quote (s : String) : String :=
  "\"" ++ String.join (s.toList.map escapeChar) ++ "\""

def showNumber (mantissa : Int) (places : Nat) : String :=
  if places = 0 then toString mantissa
  else
    let digits := toString mantissa.natAbs
    let digits := String.ofList (List.replicate (places + 1 - digits.length) '0') ++ digits
    let whole := digits.toList.take (digits.length - places)
    let part := digits.toList.drop (digits.length - places)
    (if mantissa < 0 then "-" else "") ++ String.ofList whole ++ "." ++ String.ofList part

mutual

/-- The value with the fields of every object in the order of their keys. -/
def normalize : Json → Json
  | array items => array (normalizeItems items)
  | object fields => object ((normalizeFields fields).mergeSort fun a b => !(b.1 < a.1))
  | other => other

def normalizeItems : List Json → List Json
  | [] => []
  | item :: rest => normalize item :: normalizeItems rest

def normalizeFields : List (String × Json) → List (String × Json)
  | [] => []
  | (key, value) :: rest => (key, normalize value) :: normalizeFields rest

end

mutual

/-- The value on one line, without blanks. -/
def compact : Json → String
  | null => "null"
  | bool value => if value then "true" else "false"
  | number mantissa places => showNumber mantissa places
  | string value => quote value
  | array items => "[" ++ String.intercalate "," (compactItems items) ++ "]"
  | object fields => "\x7b" ++ String.intercalate "," (compactFields fields) ++ "\x7d"

def compactItems : List Json → List String
  | [] => []
  | item :: rest => compact item :: compactItems rest

def compactFields : List (String × Json) → List String
  | [] => []
  | (key, value) :: rest => (quote key ++ ":" ++ compact value) :: compactFields rest

end

def indent (depth : Nat) : String :=
  String.ofList ('\n' :: List.replicate (2 * depth) ' ')

def block (depth : Nat) (opening closing : String) (parts : List String) : String :=
  if parts.isEmpty then opening ++ closing
  else
    opening ++ indent (depth + 1) ++ String.intercalate ("," ++ indent (depth + 1)) parts ++
      indent depth ++ closing

mutual

/-- The value on several lines, with two blanks for each depth of nesting. -/
def prettyAt (depth : Nat) : Json → String
  | array items => block depth "[" "]" (prettyItems depth items)
  | object fields => block depth "\x7b" "\x7d" (prettyFields depth fields)
  | null => "null"
  | bool value => if value then "true" else "false"
  | number mantissa places => showNumber mantissa places
  | string value => quote value

def prettyItems (depth : Nat) : List Json → List String
  | [] => []
  | item :: rest => prettyAt (depth + 1) item :: prettyItems depth rest

def prettyFields (depth : Nat) : List (String × Json) → List String
  | [] => []
  | (key, value) :: rest =>
      (quote key ++ ": " ++ prettyAt (depth + 1) value) :: prettyFields depth rest

end

def pretty (json : Json) : String :=
  prettyAt 0 json

end Json

end Dockerfile
