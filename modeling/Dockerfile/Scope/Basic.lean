import Dockerfile.File
import Dockerfile.Substitution

/-!
# Stages, variables and where they are visible

Each `FROM` begins a build stage. `ARG` and `ENV` declare variables: in front of the first `FROM`
for the whole file, behind it for their stage. A declaration is visible from the next instruction
on. A reference is looked up in its stage and then in the file; inside `FROM` only in the file.

This module says what these things are. Their tables are computed in the next one.
-/

namespace Dockerfile

/-- Where a declaration holds: in the whole file, or in one build stage. -/
inductive Scope where
  | global
  | stage (index : Nat)
  deriving DecidableEq, Repr

namespace Scope

def next : Scope → Scope
  | global => stage 0
  | stage index => stage (index + 1)

/-- The number of the stage; zero for the whole file. -/
def stageIndex : Scope → Nat
  | global => 0
  | stage index => index

end Scope

structure Site where
  index : Nat
  scope : Scope
  instruction : Instruction
  deriving DecidableEq, Repr

namespace Site

/-- Numbers the instructions and gives them their scopes. A `FROM` is in the stage it opens. -/
def ofInstructions (index : Nat) (scope : Scope) : List Instruction → List Site
  | [] => []
  | inst :: rest =>
      let scope := if inst.isKind .FROM then scope.next else scope
      ⟨index, scope, inst⟩ :: ofInstructions (index + 1) scope rest

def isFrom (site : Site) : Bool :=
  site.instruction.isKind .FROM

end Site

structure Stage where
  index : Nat
  image : Option Excerpt
  name : Option Excerpt
  /-- The number of the `FROM` instruction. -/
  instruction : Nat
  /-- From `FROM` to the end of the stage's last instruction. -/
  span : Span
  deriving DecidableEq, Repr

inductive BindingKind where
  | arg
  | env
  deriving DecidableEq, Repr

structure Binding where
  name : Text
  value : Option Text
  nameSpan : Span
  span : Span
  scope : Scope
  kind : BindingKind
  instruction : Nat
  deriving DecidableEq, Repr

structure VariableReference where
  name : Text
  /-- The place of the name. -/
  span : Span
  /-- The place of the whole substitution. -/
  fullSpan : Span
  instruction : Nat
  scope : Scope
  /-- Whether it stands in a `FROM`. -/
  inFrom : Bool
  /-- The number of the declaration it refers to. -/
  binding : Option Nat
  deriving DecidableEq, Repr

/-- The use of a stage as a base image or as the source of a copy. -/
structure StageReference where
  name : Text
  span : Span
  instruction : Nat
  stage : Option Nat
  deriving DecidableEq, Repr

structure ScopeTable where
  stages : List Stage
  bindings : List Binding
  references : List VariableReference
  stageReferences : List StageReference
  sites : List Site
  deriving DecidableEq, Repr

end Dockerfile
