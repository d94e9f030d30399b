import Dockerfile.Editor.Documentation
import Dockerfile.Editor.Edit

/-!
# Hover

What an editor shows about the word under the cursor: the value of a variable, the image of a stage,
or the documentation of a keyword, a flag or a directive.
-/

namespace Dockerfile

structure Hover where
  contents : String
  range : Range
  deriving DecidableEq, Repr

namespace Hover

def variableText (name : Text) (value : Option Text) : String :=
  let shown := match value with
    | some value => name ++ '=' :: value
    | none => name
  "```\n" ++ String.ofList shown ++ "\n```"

def stageText (stage : Stage) : String :=
  let image := String.ofList ((stage.image.map Excerpt.text).getD [])
  let title := match stage.name with
    | some name =>
        "Build stage `" ++ String.ofList name.text ++ "` (#" ++ toString stage.index ++ ")"
    | none => "Build stage #" ++ toString stage.index
  title ++ "\n\nBase image: `" ++ image ++ "`"

def keywordAt? (inst : Instruction) (offset : Nat) : Option (Option (String × Span)) :=
  if inst.keywordSpan.contains offset then
    some (inst.kind.map fun k => (Documentation.keyword k, inst.keywordSpan))
  else none

def flagAt? (inst : Instruction) (offset : Nat) : Option (String × Span) := do
  let k ← inst.kind
  let flag ← inst.flags.find? fun f => (Span.mk f.span.start f.name.span.stop).contains offset
  let name := String.ofList flag.name.text
  let doc ← Documentation.flag? k name
  return ("`--" ++ name ++ "`\n\n" ++ doc, flag.name.span)

def ofInstruction? (inst : Instruction) (offset : Nat) : Option (String × Span) :=
  match keywordAt? inst offset with
  | some found => found
  | none =>
      match inst.trigger?.bind fun trigger => keywordAt? trigger offset with
      | some found => found
      | none => flagAt? inst offset

/-- What is to be said at an offset. The first thing the cursor touches decides: a directive, a
reference, a declaration, the name of a stage, a reference to one, or an instruction. -/
def textAt? (a : Analysis) (offset : Nat) : Option (String × Span) :=
  let scopes := a.scopes
  match a.file.directives.find? fun d => d.name.span.contains offset with
  | some d =>
      (Documentation.directive? (String.ofList (Text.lowercase d.name.text))).map
        fun doc => (doc, d.name.span)
  | none =>
      match scopes.referenceAt? offset with
      | some r => do
          let binding ← scopes.bindings[← r.binding]?
          return (variableText binding.name (scopes.effectiveValue? r), r.span)
      | none =>
          match scopes.bindingAt? offset with
          | some (_, b) => some (variableText b.name b.value, b.nameSpan)
          | none =>
              match scopes.stages.find? fun s => s.name.any fun n => n.span.contains offset with
              | some s => s.name.map fun n => (stageText s, n.span)
              | none =>
                  match scopes.stageReferences.find? fun r => r.span.contains offset with
                  | some r => do
                      let stage ← scopes.stages[← r.stage]?
                      return (stageText stage, r.span)
                  | none => do
                      let (_, inst) ← a.file.instructionAround? offset
                      ofInstruction? inst offset

end Hover

namespace Analysis

def hover? (a : Analysis) (position : Position) : Option Hover :=
  (Hover.textAt? a (Text.offsetAt a.text position)).map fun found =>
    ⟨found.1, Text.rangeOf a.text found.2⟩

end Analysis

end Dockerfile
