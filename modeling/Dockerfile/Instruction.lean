import Dockerfile.Argument
import Dockerfile.Keyword

/-!
# Instructions

An instruction is a keyword and the region behind it, both with continuations resolved. Everything
else about it is computed from these: its arguments, its flags, the properties it declares and, for
`ONBUILD`, the instruction it defers.
-/

namespace Dockerfile

/-- An argument `--name` or `--name=value` in front of the others. -/
structure Flag where
  name : Excerpt
  /-- There is a value, perhaps an empty one, exactly when an equals sign was written. -/
  value : Option Excerpt
  span : Span
  /-- Which argument the flag is. -/
  argument : Nat
  deriving DecidableEq, Repr

/-- A pair `name=value` of `ENV`, `LABEL` or `ARG`. -/
structure Property where
  name : Excerpt
  /-- There is no value if no equals sign was written. -/
  value : Option Excerpt
  span : Span
  /-- Written with a blank between name and value. -/
  isLegacy : Bool
  deriving DecidableEq, Repr

def Excerpt.cutAtEquals (e : Excerpt) : Excerpt × Option Excerpt :=
  let before := e.chars.takeWhile fun p => p.char != '='
  match e.chars.dropWhile fun p => p.char != '=' with
  | [] => (e.part before [], none)
  | equals :: rest => (e.part before (equals :: rest), some (e.part rest []))

namespace Flag

def isFlag (arg : Argument) : Bool :=
  ['-', '-'].isPrefixOf arg.text

def ofArgument? (arg : Argument) (index : Nat) : Option Flag :=
  if isFlag arg then
    let body := arg.content.part (arg.content.chars.drop 2) []
    let cut := body.cutAtEquals
    some ⟨cut.1, cut.2, arg.span, index⟩
  else none

end Flag

namespace Property

def ofArgument (arg : Argument) : Property :=
  let cut := arg.content.cutAtEquals
  ⟨cut.1, cut.2, arg.span, false⟩

def unquotedValue (p : Property) (escape : Char) : Option Text :=
  p.value.map fun value => unquote escape value.text

end Property

/-- An instruction as read from a file. -/
structure Instruction where
  keyword : Excerpt
  region : Excerpt
  /-- The lines without content that interrupt the instruction. -/
  emptyLines : List Span
  escape : Char
  deriving DecidableEq, Repr

namespace Instruction

/-- An instruction from its parts. An empty region does not stand in front of the keyword's end. -/
def ofParts (keyword region : Excerpt) (emptyLines : List Span) (escape : Char) : Instruction :=
  ⟨keyword, { region with anchor := max region.anchor keyword.span.stop }, emptyLines, escape⟩

def kind (inst : Instruction) : Option Keyword :=
  Keyword.ofText? inst.keyword.text

def isKind (inst : Instruction) (k : Keyword) : Bool :=
  inst.kind == some k

def keywordSpan (inst : Instruction) : Span :=
  inst.keyword.span

/-- From the keyword to the last character of the region other than a blank. If the region has
blanks only, they are included. -/
def span (inst : Instruction) : Span :=
  let keyword := inst.keywordSpan
  let contentStop := inst.region.trimmedBounds.2
  let stop := if 0 < contentStop then (inst.region.spanAt 0 contentStop).stop else keyword.stop
  ⟨keyword.start, max stop keyword.stop⟩

def arguments (inst : Instruction) : List Argument :=
  Argument.split inst.escape inst.region

def bearsFlags (inst : Instruction) : Bool :=
  inst.kind.any Keyword.bearsFlags

def flagsFrom (index : Nat) : List Argument → List Flag
  | [] => []
  | arg :: rest =>
      match Flag.ofArgument? arg index with
      | some flag => flag :: flagsFrom (index + 1) rest
      | none => []

def flags (inst : Instruction) : List Flag :=
  if inst.bearsFlags then flagsFrom 0 inst.arguments else []

def positional (inst : Instruction) : List Argument :=
  if inst.bearsFlags then inst.arguments.dropWhile Flag.isFlag else inst.arguments

def positionalRegion (inst : Instruction) : Excerpt :=
  let start := match inst.positional.head? with
    | some arg => arg.start
    | none => inst.region.byteLength
  (inst.region.slice start inst.region.byteLength).trim

/-- The properties of `ENV`, `LABEL` and `ARG`. Of `ENV name value` and `LABEL name value` there is
one, whose value is the rest of the region. -/
def properties (inst : Instruction) : List Property :=
  match inst.arguments with
  | first :: second :: rest =>
      if (inst.isKind .ENV || inst.isKind .LABEL) && !first.text.contains '=' then
        let value := (inst.region.slice second.start inst.region.byteLength).trim
        [⟨first.content, some value, first.span.cover value.span, true⟩]
      else (first :: second :: rest).map Property.ofArgument
  | args => args.map Property.ofArgument

def trigger? (inst : Instruction) : Option Instruction :=
  if inst.isKind .ONBUILD then
    match inst.region.chars.dropWhile fun p => isBlank p.char with
    | [] => none
    | first :: rest =>
        let keyword := (first :: rest).takeWhile fun p => !isBlank p.char
        let rest := (first :: rest).dropWhile fun p => !isBlank p.char
        some (ofParts (inst.region.part keyword rest) (inst.region.part rest []) [] inst.escape)
  else none

/-- A deferred instruction has a shorter region than the one that defers it. -/
theorem trigger?_length {inst trigger : Instruction} (h : inst.trigger? = some trigger) :
    trigger.region.chars.length < inst.region.chars.length := by
  unfold trigger? at h
  split at h
  · have hle := length_dropWhile_le (fun p : Placed => isBlank p.char) inst.region.chars
    have hhead := @List.head?_dropWhile_not _ (fun p : Placed => isBlank p.char) inst.region.chars
    revert h hle hhead
    cases hd : inst.region.chars.dropWhile fun p => isBlank p.char with
    | nil => intro h; cases h
    | cons first rest =>
        intro h hle hhead
        simp only [Option.some.injEq] at h
        subst h
        simp only [List.head?_cons] at hhead
        simp only [ofParts, Excerpt.part, List.dropWhile_cons, hhead, Bool.not_false, if_true]
        have := length_dropWhile_le (fun p : Placed => !isBlank p.char) rest
        simp only [List.length_cons] at hle
        omega
  · cases h

end Instruction

end Dockerfile
