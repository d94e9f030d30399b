import Dockerfile.Scope.Table

/-!
# Symbols

What a cursor points at: a variable or a build stage. A variable is known by its name and its scope,
so that all declarations of a name in one scope are one symbol. The occurrences of a symbol are the
places that change together when it is renamed.
-/

namespace Dockerfile

inductive Symbol where
  | var (name : Text) (scope : Scope)
  | stage (index : Nat)
  deriving DecidableEq, Repr

/-- A place where the name of a symbol is written. -/
structure Occurrence where
  span : Span
  isDeclaration : Bool
  deriving DecidableEq, Repr

namespace ScopeTable

def firstOfEachName (seen : List Text) : List Binding → List Binding
  | [] => []
  | b :: rest =>
      if seen.contains b.name then firstOfEachName seen rest
      else b :: firstOfEachName (b.name :: seen) rest

/-- The declarations visible at an offset, one for each name, those of the stage first and later
ones before earlier ones. -/
def visibleAt (table : ScopeTable) (offset : Nat) : List Binding :=
  match (table.sites.takeWhile fun s => s.instruction.span.start < offset).getLast? with
  | none => []
  | some current =>
      let inside := current.instruction.span.contains offset
      let inFrom := inside && current.isFrom
      let scopes := if inFrom || current.scope == .global then [Scope.global]
        else [current.scope, .global]
      firstOfEachName [] (scopes.flatMap fun wanted =>
        table.bindings.reverse.filter fun b =>
          b.scope == wanted &&
            (b.instruction < current.index || (b.instruction == current.index && !inside)))

def referenceAt? (table : ScopeTable) (offset : Nat) : Option VariableReference :=
  table.references.find? fun r => r.span.contains offset

/-- The first declaration whose name a cursor touches, with its number. -/
def bindingAt? (table : ScopeTable) (offset : Nat) : Option (Nat × Binding) :=
  (table.bindings.zipIdx.find? fun b => b.1.nameSpan.contains offset).map fun b => (b.2, b.1)

/-- The scope under which a reference is known: that of its declaration, or its own. -/
def symbolScope (table : ScopeTable) (reference : VariableReference) : Scope :=
  match reference.binding.bind fun b => table.bindings[b]? with
  | some binding => binding.scope
  | none => reference.scope

def stageNameSpan? (table : ScopeTable) (index : Nat) : Option Span := do
  let stage ← table.stages[index]?
  return (← stage.name).span

/-- The symbol under a cursor and the place of the name there. Declarations come before references,
variables before stages. -/
def symbolAt? (table : ScopeTable) (offset : Nat) : Option (Symbol × Span) :=
  match table.bindingAt? offset with
  | some (_, binding) => some (.var binding.name binding.scope, binding.nameSpan)
  | none =>
      match table.referenceAt? offset with
      | some reference =>
          some (.var reference.name (table.symbolScope reference), reference.span)
      | none =>
          match table.stages.find? fun s => s.name.any fun n => n.span.contains offset with
          | some stage => stage.name.map fun n => (.stage stage.index, n.span)
          | none => do
              let reference ← table.stageReferences.find? fun r => r.span.contains offset
              return (.stage (← reference.stage), reference.span)

/-- Sorts occurrences by where they start; those that start together keep their order. -/
def sortByStart (occurrences : List Occurrence) : List Occurrence :=
  occurrences.mergeSort fun a b => a.span.start ≤ b.span.start

/-- The occurrences of a symbol in the order of the file. A stage that is referred to by its number
is not named there. -/
def occurrences (table : ScopeTable) : Symbol → List Occurrence
  | .var name scope =>
      let declared := (table.bindings.filter fun b => b.name == name && b.scope == scope).map
        fun b => ⟨b.nameSpan, true⟩
      let used := (table.references.filter fun r =>
        r.name == name && table.symbolScope r == scope).map fun r => ⟨r.span, false⟩
      sortByStart (declared ++ used)
  | .stage index =>
      let declared := (table.stageNameSpan? index).toList.map fun span => ⟨span, true⟩
      let used := (table.stageReferences.filter fun r =>
        r.stage == some index && !r.name.all Char.isDigit).map fun r => ⟨r.span, false⟩
      sortByStart (declared ++ used)

def definitionAt? (table : ScopeTable) (offset : Nat) : Option Span :=
  match table.bindingAt? offset with
  | some (_, binding) => some binding.nameSpan
  | none =>
      match table.referenceAt? offset with
      | some reference => do
          let binding ← table.bindings[← reference.binding]?
          return binding.nameSpan
      | none =>
          match table.symbolAt? offset with
          | some (.stage index, _) => table.stageNameSpan? index
          | _ => none

end ScopeTable

end Dockerfile
