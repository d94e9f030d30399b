import Dockerfile.Comment

/-!
# Parser directives

The first lines of a file may be directives, `# name=value`. The first line of another form ends
them for good. A value that ends with a backslash goes on in the next line, unless the backslash is
the whole value.
-/

namespace Dockerfile

/-- A parser directive. -/
structure Directive where
  /-- The name as written. -/
  name : Excerpt
  value : Text
  valueSpan : Span
  /-- From the mark to the end of the last line the directive takes. -/
  span : Span
  deriving DecidableEq, Repr

namespace Directive

def knownNames : List String :=
  ["escape", "syntax", "check"]

def isKnown (d : Directive) : Bool :=
  knownNames.any fun name => name.toList == Text.lowercase d.name.text

def isEscape (d : Directive) : Bool :=
  Text.sameIgnoringCase d.name.text "escape".toList

def escapeChar? (d : Directive) : Option Char :=
  if d.isEscape then
    match d.value with
    | ['\\'] => some '\\'
    | ['\x60'] => some '\x60'
    | _ => none
  else none

def ofLine? (line : Line) : Option Directive :=
  let chars := (Text.place line.start line.content).dropWhile fun p => isBlank p.char
  match chars with
  | [] => none
  | mark :: rest =>
      let rest := rest.dropWhile fun p => isBlank p.char
      let name := rest.takeWhile fun p => p.char.isAlphanum
      let rest := rest.dropWhile fun p => p.char.isAlphanum
      match name, rest.dropWhile (fun p => isBlank p.char) with
      | first :: _, equals :: rest' =>
          if mark.char = '#' ∧ first.char.isAlpha ∧ equals.char = '=' then
            let value := rest'.dropWhile fun p => isBlank p.char
            let trimmed := Text.trimBlanksEnd (Placed.text value)
            let start := Placed.startOr line.stop value
            some ⟨⟨name, mark.stop⟩, trimmed, ⟨start, start + Text.byteLength trimmed⟩,
              ⟨mark.offset, line.stop⟩⟩
          else none
      | _, _ => none

def isOpen (d : Directive) : Bool :=
  1 < d.value.length && d.value.getLast? == some '\\'

def extend (d : Directive) (line : Line) : Directive :=
  let next := Text.trimBlanksEnd line.content
  { d with
    value := d.value.dropLast ++ next
    valueSpan := ⟨d.valueSpan.start, line.start + Text.byteLength next⟩
    span := ⟨d.span.start, line.stop⟩ }

/-- The directives of these lines and the offset where they end. `current` is the directive that
the lines so far end with, and `stop` where the file ends. -/
def readFrom (stop : Nat) (current : Option Directive) : List Line → List Directive × Nat
  | [] => (current.toList, stop)
  | line :: lines =>
      match current with
      | some d =>
          if d.isOpen then readFrom stop (some (d.extend line)) lines
          else
            match ofLine? line with
            | some next =>
                let found := readFrom stop (some next) lines
                (d :: found.1, found.2)
            | none => ([d], line.start)
      | none =>
          match ofLine? line with
          | some next => readFrom stop (some next) lines
          | none => ([], line.start)

def readAll (text : Text) : List Directive × Nat :=
  readFrom (Text.byteLength text) none (Text.lines text)

def comment (text : Text) (d : Directive) : Comment :=
  Comment.ofBody d.span.start d.span.stop (Text.slice text ⟨d.span.start + 1, d.span.stop⟩)

end Directive

end Dockerfile
