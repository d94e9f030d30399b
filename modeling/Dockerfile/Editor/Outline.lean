import Dockerfile.Editor.Edit
import Dockerfile.Text.Unicode

/-!
# Outlines

The structure of a file as a tree: each stage holds its instructions, and what stands in front of
the first stage is at the top.
-/

namespace Dockerfile

inductive OutlineKind where
  | stage
  | var
  | label
  | instruction
  deriving DecidableEq, Repr

structure OutlineEntry where
  name : Text
  detail : Text
  kind : OutlineKind
  range : Range
  /-- What is selected when the entry is chosen. -/
  selection : Range
  deriving DecidableEq, Repr

/-- A node of an outline: an instruction, or a stage and its instructions. -/
inductive OutlineNode where
  | leaf (entry : OutlineEntry)
  | stage (entry : OutlineEntry) (children : List OutlineEntry)
  deriving DecidableEq, Repr

namespace Outline

def detailLimit : Nat := 60

def detail (inst : Instruction) : Text :=
  let text := Text.trim inst.region.text
  if detailLimit < text.length then text.take detailLimit ++ "...".toList else text

def kindOf : Option Keyword → OutlineKind
  | some .ARG | some .ENV => .var
  | some .LABEL => .label
  | _ => .instruction

/-- The entry of an instruction; unknown keywords are shown as written. -/
def entry (text : Text) (inst : Instruction) : OutlineEntry where
  name := match inst.kind with
    | some k => k.text
    | none => inst.keyword.text
  detail := detail inst
  kind := kindOf inst.kind
  range := Text.rangeOf text inst.span
  selection := Text.rangeOf text inst.keywordSpan

def stageTitle (stage : Stage) : Text :=
  let name := match stage.name with
    | some name => name.text
    | none => (stage.image.map Excerpt.text).getD []
  if name.isEmpty then "FROM".toList else name

def stageEntry (text : Text) (stage : Stage) (inst : Instruction) : OutlineEntry where
  name := stageTitle stage
  detail := detail inst
  kind := .stage
  range := Text.rangeOf text stage.span
  selection := Text.rangeOf text (match stage.name with
    | some name => name.span
    | none => inst.keywordSpan)

def stageNode (text : Text) (sites : List Site) (stage : Stage) : Option OutlineNode :=
  (sites[stage.instruction]?).map fun site =>
    let members := sites.filter fun s => s.scope == .stage stage.index && !s.isFrom
    .stage (stageEntry text stage site.instruction) (members.map fun s => entry text s.instruction)

end Outline

namespace Analysis

def outline (a : Analysis) : List OutlineNode :=
  let leading := a.scopes.sites.filter fun s => s.scope == .global
  leading.map (fun s => .leaf (Outline.entry a.text s.instruction)) ++
    a.scopes.stages.filterMap (Outline.stageNode a.text a.scopes.sites)

end Analysis

end Dockerfile
