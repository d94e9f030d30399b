import Dockerfile.Editor.Hover
import Dockerfile.Editor.Navigation
import Dockerfile.Proofs.Checked.Scope
import Dockerfile.Proofs.Editor.Candidates

/-!
# Hover, navigation and renaming, access by access

A position is first made an offset; what a cursor touches there is looked up in the tables, and its
place is made a range. Declarations are followed by number, and the place of a flag without its value
goes from the flag to its name, which is in order in an instruction of a file.
-/

namespace Dockerfile

namespace Checked

/-! ## Symbols -/

def symbolUnder? (a : Analysis) (position : Position) : Checked (Option (Symbol × Span)) := do
  symbolAt? a.scopes (← offsetAt a.text position)

def occurrencesUnder (a : Analysis) (position : Position) : Checked (List Occurrence) := do
  match ← symbolUnder? a position with
  | some (symbol, _) => occurrences a.scopes symbol
  | none => return []

def definition? (a : Analysis) (position : Position) : Checked (Option Range) := do
  match ← definitionAt? a.scopes (← offsetAt a.text position) with
  | some place => return some (← rangeOf a.text place)
  | none => return none

def referencesTo (a : Analysis) (position : Position) (withDeclarations : Bool) :
    Checked (List Range) := do
  let found ← occurrencesUnder a position
  (found.filter fun o => withDeclarations || !o.isDeclaration).mapM fun o => rangeOf a.text o.span

def highlights (a : Analysis) (position : Position) : Checked (List Highlight) := do
  (← occurrencesUnder a position).mapM fun o => do
    return ⟨← rangeOf a.text o.span, o.isDeclaration⟩

def renameTarget? (a : Analysis) (position : Position) : Checked (Option RenameTarget) := do
  match ← symbolUnder? a position with
  | some (_, place) => return some ⟨← rangeOf a.text place, ← sliceSpan a.text place⟩
  | none => return none

def editOf (text : Text) (s : Span) (newText : Text) : Checked TextEdit := do
  return ⟨← rangeOf text s, newText⟩

/-- The edits that rename the symbol under a position, if there is one and the name suits it. -/
def rename? (a : Analysis) (position : Position) (newName : Text) :
    Checked (Option (List TextEdit)) := do
  match ← symbolUnder? a position with
  | none => return none
  | some (symbol, _) =>
      if symbol.accepts newName then
        return some (← (← occurrences a.scopes symbol).mapM fun o => editOf a.text o.span newName)
      else return none

@[simp] theorem editOf_eq (text : Text) (s : Span) (newText : Text) :
    editOf text s newText = .ok (TextEdit.ofSpan text s newText) := by
  rw [editOf, rangeOf_eq]
  rfl

section Symbols

variable {a : Analysis} (h : Resolved a.scopes)
include h

theorem symbolUnder?_eq (position : Position) :
    symbolUnder? a position = .ok (a.symbolAt? position) := by
  rw [symbolUnder?, offsetAt_eq, ok_bind, symbolAt?_eq h]
  rfl

theorem occurrencesUnder_eq (position : Position) :
    occurrencesUnder a position = .ok (a.occurrencesAt position) := by
  rw [occurrencesUnder, symbolUnder?_eq h, ok_bind, Analysis.occurrencesAt]
  cases a.symbolAt? position with
  | none => rfl
  | some found => exact occurrences_eq h found.1

theorem definition?_eq (position : Position) :
    definition? a position = .ok (a.definition? position) := by
  rw [definition?, offsetAt_eq, ok_bind, definitionAt?_eq h, ok_bind, Analysis.definition?]
  simp only [rangeOf_eq, ok_bind, pure_eq]
  cases a.scopes.definitionAt? (Text.offsetAt a.text position) <;> rfl

theorem referencesTo_eq (position : Position) (withDeclarations : Bool) :
    referencesTo a position withDeclarations = .ok (a.references position withDeclarations) := by
  rw [referencesTo, occurrencesUnder_eq h, ok_bind]
  exact mapM_eq fun o _ => rangeOf_eq a.text o.span

theorem highlights_eq (position : Position) :
    highlights a position = .ok (a.highlights position) := by
  rw [highlights, occurrencesUnder_eq h, ok_bind]
  exact mapM_eq fun o _ => by rw [rangeOf_eq]; rfl

theorem renameTarget?_eq (position : Position) :
    renameTarget? a position = .ok (a.renameTarget? position) := by
  rw [renameTarget?, symbolUnder?_eq h, ok_bind, Analysis.renameTarget?]
  simp only [rangeOf_eq, sliceSpan_eq, ok_bind, pure_eq]
  cases a.symbolAt? position <;> rfl

theorem rename?_eq (position : Position) (newName : Text) :
    rename? a position newName = .ok (a.rename? position newName) := by
  rw [rename?, symbolUnder?_eq h, ok_bind, Analysis.rename?]
  cases a.symbolAt? position with
  | none => rfl
  | some found =>
      simp only [occurrences_eq h, ok_bind, mapM_eq fun (o : Occurrence) _ =>
        editOf_eq a.text o.span newName, Option.bind_eq_bind, Option.bind_some, pure_eq]
      split <;> rfl

end Symbols

/-! ## Hover -/

def instructionAround? (file : File) (offset : Nat) : Checked (Option (Nat × Instruction)) := do
  let found ← find? (fun p => do return (← extent p.1).contains offset) file.instructions.zipIdx
  return found.map fun p => (p.2, p.1)

@[simp] theorem instructionAround?_eq (file : File) (offset : Nat) :
    instructionAround? file offset = .ok (file.instructionAround? offset) := by
  have hextent : ∀ p ∈ file.instructions.zipIdx, (do return (← extent p.1).contains offset) =
      (.ok (p.1.extent.contains offset) : Checked Bool) := fun p _ => by rw [extent_eq]; rfl
  rw [instructionAround?, find?_eq hextent]
  rfl

def flagAt? (inst : Instruction) (offset : Nat) : Checked (Option (String × Span)) := do
  let found ← find? (fun f => do return (← span f.span.start f.name.span.stop).contains offset)
    (← flags inst)
  return do
    let k ← inst.kind
    let flag ← found
    let name := String.ofList flag.name.text
    let doc ← Documentation.flag? k name
    return ("`--" ++ name ++ "`\n\n" ++ doc, flag.name.span)

def hoverInstruction? (inst : Instruction) (offset : Nat) : Checked (Option (String × Span)) := do
  match Hover.keywordAt? inst offset with
  | some found => return found
  | none =>
      match (← trigger? inst).bind fun trigger => Hover.keywordAt? trigger offset with
      | some found => return found
      | none => flagAt? inst offset

def hoverReference? (scopes : ScopeTable) (r : VariableReference) :
    Checked (Option (String × Span)) := do
  match ← declaration? scopes r with
  | none => return none
  | some binding =>
      return some (Hover.variableText binding.name (← effectiveValue? scopes r), r.span)

def hoverText? (a : Analysis) (offset : Nat) : Checked (Option (String × Span)) := do
  match a.file.directives.find? fun d => d.name.span.contains offset with
  | some d =>
      return (Documentation.directive? (String.ofList (Text.lowercase d.name.text))).map
        fun doc => (doc, d.name.span)
  | none =>
      match a.scopes.referenceAt? offset with
      | some r => hoverReference? a.scopes r
      | none =>
          match a.scopes.bindingAt? offset with
          | some (_, b) => return some (Hover.variableText b.name b.value, b.nameSpan)
          | none =>
              match a.scopes.stages.find? fun s => s.name.any fun n => n.span.contains offset with
              | some s => return s.name.map fun n => (Hover.stageText s, n.span)
              | none =>
                  match a.scopes.stageReferences.find? fun r => r.span.contains offset with
                  | some r =>
                      return (r.stage.bind fun number => a.scopes.stages[number]?).map fun stage =>
                        (Hover.stageText stage, r.span)
                  | none =>
                      match ← instructionAround? a.file offset with
                      | some (_, inst) => hoverInstruction? inst offset
                      | none => return none

def hover? (a : Analysis) (position : Position) : Checked (Option Hover) := do
  match ← hoverText? a (← offsetAt a.text position) with
  | none => return none
  | some found => return some ⟨found.1, ← rangeOf a.text found.2⟩

theorem flagAt?_eq {text : Text} {inst : Instruction} (h : inst.Within text) (offset : Nat) :
    flagAt? inst offset = .ok (Hover.flagAt? inst offset) := by
  have hordered : ∀ f ∈ inst.flags,
      (do return (← span f.span.start f.name.span.stop).contains offset) =
        (.ok ((Span.mk f.span.start f.name.span.stop).contains offset) : Checked Bool) := by
    intro f hf
    rw [span_eq (Token.flag_within h hf).ordered]
    rfl
  rw [flagAt?, flags_eq, ok_bind, find?_eq hordered]
  rfl

theorem hoverInstruction?_eq {text : Text} {inst : Instruction} (h : inst.Within text)
    (offset : Nat) : hoverInstruction? inst offset = .ok (Hover.ofInstruction? inst offset) := by
  unfold hoverInstruction? Hover.ofInstruction?
  cases Hover.keywordAt? inst offset with
  | some found => rfl
  | none =>
      rw [trigger?_eq, ok_bind]
      dsimp only
      cases inst.trigger?.bind fun trigger => Hover.keywordAt? trigger offset with
      | some found => rfl
      | none => exact flagAt?_eq h offset

theorem hoverReference?_eq {scopes : ScopeTable} (h : Resolved scopes) {r : VariableReference}
    (hr : r ∈ scopes.references) :
    hoverReference? scopes r = .ok (do
      let binding ← scopes.bindings[← r.binding]?
      return (Hover.variableText binding.name (scopes.effectiveValue? r), r.span)) := by
  rw [hoverReference?, declaration?_eq h hr, effectiveValue?_eq h hr, ok_bind]
  cases r.binding with
  | none => rfl
  | some number =>
      simp only [Option.bind_some, Option.bind_eq_bind, ok_bind, pure_eq]
      cases scopes.bindings[number]? <;> rfl

theorem mem_of_instructionAround? {file : File} {offset : Nat} {found : Nat × Instruction}
    (h : file.instructionAround? offset = some found) :
    found.2 ∈ file.instructions ∧ found.2.extent.contains offset = true := by
  obtain ⟨p, hp, rfl⟩ := Option.map_eq_some_iff.mp h
  have hmem := List.mem_zipIdx' (List.mem_of_find?_eq_some hp)
  exact ⟨hmem.2 ▸ List.getElem_mem hmem.1, (List.find?_some hp :)⟩

theorem hoverText?_eq {a : Analysis} (h : Resolved a.scopes)
    (hwithin : ∀ inst ∈ a.file.instructions, inst.Within a.text) (offset : Nat) :
    hoverText? a offset = .ok (Hover.textAt? a offset) := by
  unfold hoverText? Hover.textAt?
  dsimp only
  cases a.file.directives.find? fun d => d.name.span.contains offset with
  | some d => rfl
  | none =>
  cases hreference : a.scopes.referenceAt? offset with
  | some r => exact hoverReference?_eq h (List.mem_of_find?_eq_some hreference)
  | none =>
  cases a.scopes.bindingAt? offset with
  | some b => rfl
  | none =>
  cases a.scopes.stages.find? fun s => s.name.any fun n => n.span.contains offset with
  | some s => rfl
  | none =>
  cases a.scopes.stageReferences.find? fun r => r.span.contains offset with
  | some r =>
      dsimp only
      cases r.stage with
      | none => rfl
      | some number =>
          simp only [Option.bind_some, Option.bind_eq_bind, pure_eq]
          cases a.scopes.stages[number]? <;> rfl
  | none =>
      rw [instructionAround?_eq, ok_bind]
      cases hfound : a.file.instructionAround? offset with
      | none => rfl
      | some found =>
          exact hoverInstruction?_eq (hwithin _ (mem_of_instructionAround? hfound).1) offset

theorem hover?_eq {a : Analysis} (h : Resolved a.scopes)
    (hwithin : ∀ inst ∈ a.file.instructions, inst.Within a.text) (position : Position) :
    hover? a position = .ok (a.hover? position) := by
  rw [hover?, offsetAt_eq, ok_bind, hoverText?_eq h hwithin, ok_bind, Analysis.hover?]
  simp only [rangeOf_eq, ok_bind, pure_eq]
  cases Hover.textAt? a (Text.offsetAt a.text position) <;> rfl

end Checked

end Dockerfile
