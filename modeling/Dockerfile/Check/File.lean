import Dockerfile.Check.Instruction
import Dockerfile.Finding.Settings
import Dockerfile.Scope.Table

/-!
# Whole files

The findings about a file: about its directives, about each instruction, and about instructions that
do not go together. A diagnostic is a finding with its severity and its range in an editor.
-/

namespace Dockerfile

structure Diagnostic where
  span : Span
  range : Range
  severity : Severity
  code : Code
  message : String
  deriving DecidableEq, Repr

namespace Diagnostic

def display (d : Diagnostic) : String :=
  d.range.start.display ++ " " ++ d.severity.name ++ ": " ++ d.message ++ " [" ++ d.code.name ++ "]"

/-- Reports a finding, unless the settings ignore it. An empty place is widened, so that it can be
seen. -/
def ofFinding? (text : Text) (settings : Settings) (f : Finding) : Option Diagnostic :=
  (settings.severity? f.problem).map fun severity =>
    let span := Text.widen text f.span
    ⟨span, Text.rangeOf text span, severity, f.problem.code, f.problem.message⟩

/-- The order of reports: by start, then by end. -/
def le (a b : Diagnostic) : Bool :=
  a.span.start < b.span.start || (a.span.start == b.span.start && a.span.stop ≤ b.span.stop)

end Diagnostic

namespace Check

def directive (d : Directive) : List Finding :=
  let name := d.name.text
  (if name ≠ Text.lowercase name then [⟨.casingDirective, d.name.span⟩] else []) ++
  (if !d.isKnown then [⟨.unknownDirective name, d.name.span⟩]
    else if d.isEscape && d.escapeChar?.isNone then [⟨.invalidEscape d.value, d.valueSpan⟩]
    else [])

def sourceImage (instructions : List Instruction) : List Finding :=
  match instructions.find? fun inst => !inst.isKind .ARG with
  | none => [⟨.noSourceImage, Span.empty 0⟩]
  | some inst => if inst.isKind .FROM then [] else [⟨.noSourceImage, inst.keywordSpan⟩]

def withEmptyLines (inst : Instruction) : List Finding :=
  instruction inst ++ inst.emptyLines.map fun line => ⟨.emptyContinuationLine, line⟩

def duplicateStages (stages : List Stage) : List Finding :=
  (stages.filterMap Stage.name).filterMap fun name =>
    if 1 < stages.countP (Stage.isNamed name.text) then
      some ⟨.duplicateStageName name.text, name.span⟩
    else none

def overridden (keyword : Keyword) : List Site → List Finding
  | [] => []
  | site :: rest =>
      if site.instruction.isKind keyword &&
          rest.any (fun s => s.instruction.isKind keyword && s.scope == site.scope) then
        ⟨.multipleInstructions keyword, site.instruction.keywordSpan⟩ :: overridden keyword rest
      else overridden keyword rest

/-- All findings about a file, in the order of the checks. -/
def file (file : File) (scopes : ScopeTable) : List Finding :=
  file.directives.flatMap directive ++ sourceImage file.instructions ++
    file.instructions.flatMap withEmptyLines ++ duplicateStages scopes.stages ++
    overridden .CMD scopes.sites ++ overridden .ENTRYPOINT scopes.sites ++
    overridden .HEALTHCHECK scopes.sites

/-- The reports about a file, ordered by place; those at one place keep the order of the checks. -/
def diagnostics (text : Text) (f : File) (scopes : ScopeTable) (settings : Settings) :
    List Diagnostic :=
  ((file f scopes).filterMap (Diagnostic.ofFinding? text settings)).mergeSort Diagnostic.le

end Check

end Dockerfile
