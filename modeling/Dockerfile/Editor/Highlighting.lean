import Dockerfile.Editor.Edit

/-!
# Highlighting

The tokens of a file that an editor colours. Candidates are collected in order of importance; one
that overlaps an earlier one is dropped. What remains is cut at line ends, and each piece is written
relative to the one before it.
-/

namespace Dockerfile

inductive TokenType where
  | keyword
  | comment
  | directive
  | flag
  | var
  | string
  | stage
  deriving DecidableEq, Repr

namespace TokenType

/-- The number under which editors know the type. -/
def code : TokenType → Nat
  | keyword => 0
  | comment => 1
  | directive => 2
  | flag => 3
  | var => 4
  | string => 5
  | stage => 6

/-- The names of the types in the order of their numbers. -/
def legend : List String :=
  ["keyword", "comment", "macro", "parameter", "variable", "string", "namespace"]

end TokenType

inductive TokenModifier where
  | none
  | declaration
  | deprecated
  deriving DecidableEq, Repr

namespace TokenModifier

def code : TokenModifier → Nat
  | none => 0
  | declaration => 1
  | deprecated => 2

/-- The names of the modifiers in the order of their bits. -/
def legend : List String :=
  ["declaration", "deprecated"]

end TokenModifier

structure Token where
  span : Span
  type : TokenType
  modifier : TokenModifier
  deriving DecidableEq, Repr

structure LineToken where
  line : Nat
  column : Nat
  length : Nat
  type : TokenType
  modifier : TokenModifier
  deriving DecidableEq, Repr

/-- A token placed relative to the one before: lines further down, and columns further right in the
same line, or columns from the start of another. -/
structure TokenDelta where
  deltaLine : Nat
  deltaStart : Nat
  length : Nat
  type : TokenType
  modifier : TokenModifier
  deriving DecidableEq, Repr

namespace Token

/-- The keywords of an instruction: its own, that of the instruction it defers, and the words that
count as keywords among its arguments. -/
def ofKeywords (inst : Instruction) : List Token :=
  match inst.kind with
  | none => []
  | some k =>
      let own := ⟨inst.keywordSpan, .keyword, if k = .MAINTAINER then .deprecated else .none⟩
      let deferred := match _ht : inst.trigger? with
        | some trigger => ofKeywords trigger
        | none => []
      let words := match k, inst.positional with
        | .FROM, _ :: as :: _ :: _ =>
            if Text.sameIgnoringCase as.text "as".toList then [⟨as.span, .keyword, .none⟩] else []
        | .HEALTHCHECK, first :: _ =>
            if Text.sameIgnoringCase first.text "cmd".toList ||
                Text.sameIgnoringCase first.text "none".toList then
              [⟨first.span, .keyword, .none⟩]
            else []
        | _, _ => []
      own :: deferred ++ words
termination_by inst.region.chars.length
decreasing_by exact Instruction.trigger?_length _ht

/-- The quoted parts among these characters, in the quote opened by `opened` if there is one. The
last part goes to `stop` if its quote is not closed. -/
def quotedSpans (stop : Nat) (opened : Option Placed) : List Placed → List Span
  | [] =>
      match opened with
      | some q => [⟨q.offset, max stop q.offset⟩]
      | none => []
  | p :: rest =>
      match opened with
      | some q =>
          if p.char = q.char then q.spanTo p :: quotedSpans stop none rest
          else quotedSpans stop opened rest
      | none =>
          if p.char = '"' ∨ p.char = '\x27' then quotedSpans stop (some p) rest
          else quotedSpans stop none rest

def ofQuotes (arg : Argument) : List Token :=
  (quotedSpans arg.content.stop none arg.content.chars).map fun span => ⟨span, .string, .none⟩

def ofArguments (inst : Instruction) : List Token :=
  (inst.flags.map fun f => ⟨⟨f.span.start, f.name.span.stop⟩, .flag, .none⟩) ++
    inst.arguments.flatMap ofQuotes

def candidates (a : Analysis) : List Token :=
  let file := a.file
  let scopes := a.scopes
  let comments := file.comments.filter fun c => !file.directives.any fun d => d.span == c.span
  file.directives.flatMap (fun d =>
      [⟨d.name.span, .directive, .none⟩, ⟨d.valueSpan, .string, .none⟩]) ++
    file.instructions.flatMap ofKeywords ++
    (scopes.stages.filterMap Stage.name).map (fun n => ⟨n.span, .stage, .declaration⟩) ++
    scopes.stageReferences.map (fun r => ⟨r.span, .stage, .none⟩) ++
    scopes.bindings.map (fun b => ⟨b.nameSpan, .var, .declaration⟩) ++
    scopes.references.map (fun r => ⟨r.fullSpan, .var, .none⟩) ++
    file.instructions.flatMap ofArguments ++
    comments.map (fun c => ⟨c.span, .comment, .none⟩)

/-- Whether two spans share a byte. -/
def overlaps (a b : Span) : Bool :=
  a.start < b.stop && b.start < a.stop

/-- Keeps the candidates that are not empty and overlap none kept before. -/
def select (kept : List Token) : List Token → List Token
  | [] => kept
  | t :: rest =>
      if t.span.isEmpty || kept.any (fun k => overlaps t.span k.span) then select kept rest
      else select (kept ++ [t]) rest

def selected (a : Analysis) : List Token :=
  (select [] (candidates a)).mergeSort fun s t => s.span.start ≤ t.span.start

def onLine (text : Text) (t : Token) (number : Nat) : Option LineToken :=
  let line := (Text.line text number).span
  let start := max t.span.start line.start
  let stop := min t.span.stop line.stop
  if stop ≤ start then none
  else
    let first := Text.positionAt text start
    let last := Text.positionAt text stop
    let length := last.character - first.character
    if length = 0 then none
    else some ⟨first.line, first.character, length, t.type, t.modifier⟩

def cut (text : Text) (t : Token) : List LineToken :=
  let first := Text.lineOf text t.span.start
  let last := Text.lineOf text t.span.stop
  (List.range' first (last + 1 - first)).filterMap (onLine text t)

end Token

namespace LineToken

/-- Places tokens relative to each other; the first relative to `line` and `column`. -/
def deltas (line column : Nat) : List LineToken → List TokenDelta
  | [] => []
  | t :: rest =>
      let deltaLine := t.line - line
      let deltaStart := if deltaLine = 0 then t.column - column else t.column
      ⟨deltaLine, deltaStart, t.length, t.type, t.modifier⟩ :: deltas t.line t.column rest

end LineToken

namespace TokenDelta

def decode (line column : Nat) : List TokenDelta → List LineToken
  | [] => []
  | d :: rest =>
      let newLine := line + d.deltaLine
      let newColumn := if d.deltaLine = 0 then column + d.deltaStart else d.deltaStart
      ⟨newLine, newColumn, d.length, d.type, d.modifier⟩ :: decode newLine newColumn rest

end TokenDelta

namespace Analysis

/-- The tokens of a file as an editor wants them. -/
def tokens (a : Analysis) : List TokenDelta :=
  LineToken.deltas 0 0 ((Token.selected a).flatMap (Token.cut a.text))

end Analysis

end Dockerfile
