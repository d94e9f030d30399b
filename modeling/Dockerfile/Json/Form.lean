import Dockerfile.Json.Record

/-!
# Forms of values

A form says which values are in order, for values that are checked but not used. Forms are put
together from those of simple values: lists, records, and choices between forms.
-/

namespace Dockerfile

abbrev Form := Json → Bool

namespace Form

/-- A field of a record: its key, whether it may be missing or `null`, and the form of its value. -/
structure Field where
  key : String
  isOptional : Bool
  form : Form

def need (key : String) (form : Form) : Field :=
  ⟨key, false, form⟩

def may (key : String) (form : Form) : Field :=
  ⟨key, true, form⟩

def Field.admits (field : Field) : Option Json → Bool
  | none => field.isOptional
  | some .null => field.isOptional || field.form .null
  | some json => field.form json

def read (reader : Json → Option α) : Form :=
  fun json => (reader json).isSome

def any : Form :=
  fun _ => true

def text : Form :=
  read Json.string?

def truth : Form :=
  read Json.bool?

/-- A number, with or without decimal places. -/
def number : Form
  | .number _ _ => true
  | _ => false

def int32 : Form :=
  read Json.int32?

def nat32 : Form :=
  read (Json.nat? 32)

/-- One of some names, as a string or as the only key of an object without a value. -/
def oneOf (names : List String) : Form
  | .string name => names.contains name
  | .object [(name, .null)] => names.contains name
  | _ => false

def either (first second : Form) : Form :=
  fun json => first json || second json

def list (item : Form) : Form
  | .array items => items.all item
  | _ => false

@[simp] theorem list_array (item : Form) (items : List Json) :
    list item (.array items) = items.all item := rfl

def pair (item : Form) : Form
  | .array [first, second] => item first && item second
  | _ => false

def mapping (key : String → Bool) (value : Form) : Form
  | .object entries => entries.all fun entry => key entry.1 && value entry.2
  | _ => false

def record (fields : List Field) : Form := fun json =>
  match json.strictRecord? (fields.map Field.key) with
  | some values => (fields.zip values).all fun entry => entry.1.admits entry.2
  | none => false

def object (fields : List Field) : Form
  | .object entries => record fields (.object entries)
  | _ => false

/-- A variant of a record: its name, and the fields that it has beside it. -/
structure Variant where
  name : String
  fields : List Field

def variant? (variants : List Variant) : Json → Option Variant
  | .string name => variants.find? fun variant => variant.name == name
  | .number (.ofNat index) 0 => variants[index]?
  | _ => none

/-- A record of one of some variants. The tag that says which one stands under a key of the object,
or in front of the fields of the array. -/
def variants (tag : String) (all : List Variant) : Form
  | .object entries =>
      (((Json.object entries).field? tag).bind (variant? all)).any fun variant =>
        record variant.fields (.object entries)
  | .array (first :: rest) =>
      (variant? all first).any fun variant => record variant.fields (.array rest)
  | _ => false

end Form

end Dockerfile
