import Dockerfile.Editor.Edit

/-!
# Navigation and renaming

Where the symbol under a cursor is declared and used, and the edits that give it another name.
-/

namespace Dockerfile

/-- A place that an editor marks, and whether the symbol is declared there. -/
structure Highlight where
  range : Range
  isDeclaration : Bool
  deriving DecidableEq, Repr

/-- What can be renamed: its range and its present name. -/
structure RenameTarget where
  range : Range
  placeholder : Text
  deriving DecidableEq, Repr

namespace Symbol

def accepts (newName : Text) : Symbol → Bool
  | .var _ _ => Substitution.isName newName
  | .stage _ => isValidStageName newName

end Symbol

namespace Analysis

def symbolAt? (a : Analysis) (position : Position) : Option (Symbol × Span) :=
  a.scopes.symbolAt? (Text.offsetAt a.text position)

def occurrencesAt (a : Analysis) (position : Position) : List Occurrence :=
  match a.symbolAt? position with
  | some (symbol, _) => a.scopes.occurrences symbol
  | none => []

def definition? (a : Analysis) (position : Position) : Option Range :=
  (a.scopes.definitionAt? (Text.offsetAt a.text position)).map (Text.rangeOf a.text)

/-- Where the symbol under a position is written, with or without its declarations. -/
def references (a : Analysis) (position : Position) (withDeclarations : Bool) : List Range :=
  ((a.occurrencesAt position).filter fun o => withDeclarations || !o.isDeclaration).map
    fun o => Text.rangeOf a.text o.span

def highlights (a : Analysis) (position : Position) : List Highlight :=
  (a.occurrencesAt position).map fun o => ⟨Text.rangeOf a.text o.span, o.isDeclaration⟩

def renameTarget? (a : Analysis) (position : Position) : Option RenameTarget :=
  (a.symbolAt? position).map fun found =>
    ⟨Text.rangeOf a.text found.2, Text.slice a.text found.2⟩

/-- The edits that rename the symbol under a position, if there is one and the name suits it. -/
def rename? (a : Analysis) (position : Position) (newName : Text) : Option (List TextEdit) := do
  let (symbol, _) ← a.symbolAt? position
  if symbol.accepts newName then
    return (a.scopes.occurrences symbol).map fun o => TextEdit.ofSpan a.text o.span newName
  else none

end Analysis

end Dockerfile
