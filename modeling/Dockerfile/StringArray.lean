import Dockerfile.Text.Unicode
import Dockerfile.Text.Continuation

/-!
# Arrays of strings

The bracketed form of a command: `[ "a", "b" ]`, in which spaces, tabs and line breaks may stand
between the parts. The quote that delimits the strings is a parameter, so that the same grammar
recognises arrays written with single quotes. Inside a string the escape character stands for the
character after it; if it is the backslash, the letters n, t, r, b, f and u with four hexadecimal
digits behind it have the meaning they have in JSON.
-/

namespace Dockerfile

namespace StringArray

/-- A string of an array: its decoded value, and its place from quote to quote. -/
structure Literal where
  value : Text
  span : Span
  deriving DecidableEq, Repr

inductive Error where
  /-- The text does not start with a bracket. -/
  | notAnArray
  /-- A character that cannot stand there, or the end of the text. -/
  | unexpected (span : Span) (found : Option Char)
  deriving DecidableEq, Repr

def Error.message : Error → String
  | .notAnArray => "not a JSON array"
  | .unexpected _ (some c) => "unexpected '" ++ String.singleton c ++ "'"
  | .unexpected _ none => "unexpected end of input"

/-- White space between the parts of an array. -/
def isSpace (c : Char) : Bool :=
  c == ' ' || c == '\t' || c == '\r' || c == '\n'

def hexValue? (c : Char) : Option Nat :=
  if '0' ≤ c ∧ c ≤ '9' then some (c.toNat - '0'.toNat)
  else if 'a' ≤ c ∧ c ≤ 'f' then some (c.toNat - 'a'.toNat + 10)
  else if 'A' ≤ c ∧ c ≤ 'F' then some (c.toNat - 'A'.toNat + 10)
  else none

/-- The number that four hexadecimal digits write. -/
def hexCode? (a b c d : Char) : Option Nat := do
  let a ← hexValue? a
  let b ← hexValue? b
  let c ← hexValue? c
  let d ← hexValue? d
  return ((a * 16 + b) * 16 + c) * 16 + d

/-- The character with a code below 65536; the codes of surrogates give the replacement character. -/
def charOfCode (code : Nat) : Char :=
  if 0xD800 ≤ code ∧ code ≤ 0xDFFF then '\ufffd' else Char.ofNat code

def shortEscape (c : Char) : Char :=
  match c with
  | 'n' => '\n'
  | 't' => '\t'
  | 'r' => '\r'
  | 'b' => '\x08'
  | 'f' => '\x0c'
  | _ => c

def decodeEscape (escape : Char) (q : Placed) (rest : List Placed) : Char × List Placed :=
  if escape ≠ '\\' then (q.char, rest)
  else if q.char = 'u' then
    match rest with
    | a :: b :: c :: d :: rest' =>
        match hexCode? a.char b.char c.char d.char with
        | some code => (charOfCode code, rest')
        | none => ('u', rest)
    | _ => ('u', rest)
  else (shortEscape q.char, rest)

theorem decodeEscape_length (escape : Char) (q : Placed) (rest : List Placed) :
    (decodeEscape escape q rest).2.length ≤ rest.length := by
  unfold decodeEscape
  repeat' split
  all_goals simp
  omega

/-- Reads the rest of a string whose opening quote is behind us: its value, its closing quote and
what follows that. -/
def closeLiteral (quote escape : Char) : List Placed → Option (Text × Placed × List Placed)
  | [] => none
  | p :: rest =>
      if p.char = quote then some ([], p, rest)
      else if p.char = escape then
        match rest with
        | [] => none
        | q :: rest' =>
            let decoded := decodeEscape escape q rest'
            (closeLiteral quote escape decoded.2).map fun r => (decoded.1 :: r.1, r.2)
      else (closeLiteral quote escape rest).map fun r => (p.char :: r.1, r.2)
termination_by chars => chars.length
decreasing_by
  · have := decodeEscape_length escape q rest'
    simp only [List.length_cons]
    omega
  · simp

theorem closeLiteral_length {quote escape : Char} {chars rest : List Placed} {value : Text}
    {close : Placed} (h : closeLiteral quote escape chars = some (value, close, rest)) :
    rest.length < chars.length := by
  fun_induction closeLiteral quote escape chars generalizing value with
  | case1 => cases h
  | case2 => cases h; simp
  | case3 => cases h
  | case4 p _ _ q rest' decoded =>
      rename_i ih
      obtain ⟨⟨inner, r⟩, hr, he⟩ := Option.map_eq_some_iff.1 h
      cases he
      have h1 := ih hr
      have h2 : decoded.2.length ≤ rest'.length := decodeEscape_length escape q rest'
      simp only [List.length_cons]
      omega
  | case5 p rest' _ _ ih =>
      obtain ⟨⟨inner, r⟩, hr, he⟩ := Option.map_eq_some_iff.1 h
      cases he
      have h1 := ih hr
      simp only [List.length_cons]
      omega

inductive Expect where
  | valueOrClose
  | value
  | commaOrClose
  | nothing (close : Placed)
  deriving DecidableEq, Repr

/-- Reads an array behind its opening bracket: the strings and the closing bracket. `stop` is where
the text ends. -/
def elements (quote escape : Char) (stop : Nat) (expect : Expect) :
    List Placed → Except Error (List Literal × Placed)
  | [] =>
      match expect with
      | .nothing close => .ok ([], close)
      | _ => .error (.unexpected (Span.empty stop) none)
  | p :: rest =>
      if isSpace p.char then elements quote escape stop expect rest
      else
        match expect with
        | .nothing _ => .error (.unexpected p.span (some p.char))
        | .commaOrClose =>
            if p.char = ',' then elements quote escape stop .value rest
            else if p.char = ']' then elements quote escape stop (.nothing p) rest
            else .error (.unexpected p.span (some p.char))
        | _ =>
            if p.char = ']' ∧ expect = .valueOrClose then elements quote escape stop (.nothing p) rest
            else if p.char = quote then
              match _hl : closeLiteral quote escape rest with
              | none => .error (.unexpected (Span.empty stop) none)
              | some (value, close, rest') =>
                  (elements quote escape stop .commaOrClose rest').map
                    fun r => (⟨value, p.spanTo close⟩ :: r.1, r.2)
            else .error (.unexpected p.span (some p.char))
termination_by chars => chars.length
decreasing_by
  all_goals simp
  have := closeLiteral_length _hl
  omega

end StringArray

/-- An array of strings, and its place from bracket to bracket. -/
structure StringArray where
  strings : List StringArray.Literal
  span : Span
  deriving DecidableEq, Repr

namespace StringArray

def parse (quote escape : Char) (e : Excerpt) : Except Error StringArray :=
  match e.chars.dropWhile fun p => isSpace p.char with
  | p :: rest =>
      if p.char = '[' then
        (elements quote escape e.stop .valueOrClose rest).map fun r => ⟨r.1, p.spanTo r.2⟩
      else .error .notAnArray
  | [] => .error .notAnArray

/-- Whether an excerpt starts like an array: with a bracket behind white space. -/
def looksLike (e : Excerpt) : Bool :=
  (Text.trimStart e.text).head? == some '['

end StringArray

end Dockerfile
