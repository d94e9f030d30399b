import Dockerfile.Editor.Navigation
import Dockerfile.Proofs.Scope.StageTables
import Dockerfile.Proofs.Scope.Values

/-!
# Renaming

The edits of a renaming replace the name of a symbol at its occurrences. Applied to the text, they
leave a text that is analysed alike: a variable is resolved to the declaration it was resolved to
(`Analysis.rename_resolution`), and a reference to a stage, if its spelling tells how it was resolved
(`Analysis.rename_stages`).
-/

namespace Dockerfile

/-- The tables have a new name at these occurrences, and are otherwise the same. -/
structure ScopeTable.RenamedAt (occurrences : List Occurrence) (new : Text)
    (table table' : ScopeTable) : Prop where
  bindings : List.Forall₂ (fun b b' => b'.scope = b.scope ∧ b'.kind = b.kind ∧
    b'.instruction = b.instruction ∧
    b'.name = if ⟨b.nameSpan, true⟩ ∈ occurrences then new else b.name) table.bindings table'.bindings
  references : List.Forall₂ (fun r r' => r'.scope = r.scope ∧ r'.instruction = r.instruction ∧
    r'.inFrom = r.inFrom ∧ r'.binding = r.binding ∧
    r'.name = if ⟨r.span, false⟩ ∈ occurrences then new else r.name) table.references table'.references

theorem ScopeTable.sortByStart_eq_self {occurrences : List Occurrence}
    (h : occurrences.Pairwise fun a b => a.span.start ≤ b.span.start) :
    sortByStart occurrences = occurrences :=
  List.mergeSort_of_pairwise (h.imp fun hab => decide_eq_true hab)

namespace Analysis

variable {text newName : Text} {settings : Settings} {position : Position} {span : Span}

section Edits

variable {symbol : Symbol}
  (hsymbol : (analyze text settings).symbolAt? position = some (symbol, span))
  (hnew : symbol.accepts newName = true)

include hsymbol hnew

theorem rename?_eq : (analyze text settings).rename? position newName =
    some (((analyze text settings).scopes.occurrences symbol).map fun o =>
      TextEdit.ofSpan text o.span newName) := by
  rw [rename?, hsymbol]
  simp only [Option.bind_eq_bind, Option.bind_some, hnew, if_true]
  rfl

theorem exists_rename? {α : Type} {f : α → List Placed} {mentions : Instruction → List (List Placed)}
    {items : List α} (hmentioned : File.Mentioned text f mentions items)
    {isSelected isDeclaration : α → Bool}
    (hoccurrences : (analyze text settings).scopes.occurrences symbol = ScopeTable.sortByStart
      ((items.filter isSelected).map fun a => ⟨Placed.reach (f a), isDeclaration a⟩)) :
    ∃ names, File.Mentions text names ∧ Selected f isSelected items names ∧
      (analyze text settings).rename? position newName =
        some (TextEdit.respell text names newName) := by
  obtain ⟨names, hmentions, hselected, hedits⟩ := hmentioned.exists_names isSelected isDeclaration
  refine ⟨names, hmentions, hselected, ?_⟩
  rw [rename?_eq hsymbol hnew, hoccurrences, hedits]

end Edits

/-! ## Variables -/

section Variables

variable {name : Text} {scope : Scope}

theorem occurrencesAt_eq
    (hsymbol : (analyze text settings).symbolAt? position = some (.var name scope, span)) :
    (analyze text settings).occurrencesAt position =
      (analyze text settings).scopes.occurrences (.var name scope) := by
  rw [occurrencesAt, hsymbol]

theorem exists_rename?_var
    (hsymbol : (analyze text settings).symbolAt? position = some (.var name scope, span))
    (hnew : Substitution.isName newName = true) :
    ∃ names, File.Mentions text names ∧
      Selected Mention.chars (Mention.isOf (analyze text settings).scopes.bindings name scope)
        (File.mentions text) names ∧
      (analyze text settings).rename? position newName =
        some (TextEdit.respell text names newName) :=
  exists_rename? hsymbol hnew (File.mentioned text)
    (ScopeTable.occurrences_var (File.parse text).instructions name scope)

/-- Renaming a variable preserves how names are resolved. -/
theorem rename_resolution
    (hsymbol : (analyze text settings).symbolAt? position = some (.var name scope, span))
    (hname : Substitution.isName name = true)
    (hnew : (analyze text settings).scopes.IsFreshName newName) :
    ∃ edits, (analyze text settings).rename? position newName = some edits ∧
      ((analyze text settings).scopes).RenamedAt ((analyze text settings).occurrencesAt position)
        newName (analyze (TextEdit.applyAll text edits) settings).scopes := by
  obtain ⟨names, hmentions, hselected, hrename⟩ := exists_rename?_var hsymbol hnew.isName
  have hrenamed := File.tables_respelled hselected hmentions hname hnew
  refine ⟨_, hrename, ?_, ?_⟩
  · refine (forall₂_mem hrenamed.bindings).imp ?_
    rintro b b' ⟨hb, -, h⟩
    refine ⟨h.scope, h.kind, h.instruction, ?_⟩
    rw [h.name, occurrencesAt_eq hsymbol]
    exact if_congr (File.mem_occurrences_binding hb name scope).symm rfl rfl
  · refine (forall₂_mem hrenamed.references).imp ?_
    rintro r r' ⟨hr, -, h⟩
    refine ⟨h.scope, h.instruction, h.inFrom, h.binding, ?_⟩
    rw [h.name, occurrencesAt_eq hsymbol]
    exact if_congr (File.mem_occurrences_reference hr name scope).symm rfl rfl

/-- The variable of a stage, used in a default value of a deferred instruction, is told apart from
the one of the file. -/
theorem rename_resolution_stage :
    let text := "ARG v=1\nFROM $\x7bv\x7d\nENV v=2\nONBUILD RUN $\x7bx:-$v\x7d".toList
    ((analyze text {}).symbolAt? ⟨2, 4⟩ = some (.var "v".toList (.stage 0), ⟨22, 23⟩) ∧
      (analyze text {}).scopes.IsFreshName "w".toList) ∧
    ∃ edits, (analyze text {}).rename? ⟨2, 4⟩ "w".toList = some edits ∧
      ((analyze text {}).scopes).RenamedAt ((analyze text {}).occurrencesAt ⟨2, 4⟩)
        "w".toList (analyze (TextEdit.applyAll text edits) {}).scopes := by
  intro text
  have hsymbol : (analyze text {}).symbolAt? ⟨2, 4⟩ =
      some (.var "v".toList (.stage 0), ⟨22, 23⟩) := by decide +kernel
  have hnew : (analyze text {}).scopes.IsFreshName "w".toList :=
    ⟨by decide, by decide +kernel, by decide +kernel⟩
  exact ⟨⟨hsymbol, hnew⟩, rename_resolution hsymbol (by decide) hnew⟩

/-- Renaming a variable preserves the values of references, except where they refer to an `ARG`
without a value that is parted from the declaration for the file. -/
theorem rename_values
    (hsymbol : (analyze text settings).symbolAt? position = some (.var name scope, span))
    (hname : Substitution.isName name = true)
    (hnew : (analyze text settings).scopes.IsFreshName newName)
    (hplain : ∀ b ∈ (analyze text settings).scopes.bindings, ∀ v ∈ b.value, '$' ∉ v) :
    ∃ edits, (analyze text settings).rename? position newName = some edits ∧
      List.Forall₂ (fun r r' =>
        (analyze (TextEdit.applyAll text edits) settings).scopes.effectiveValue? r' =
          if ((analyze text settings).scopes.bindingOf? r).any (Binding.isParted name scope) then none
          else (analyze text settings).scopes.effectiveValue? r)
        (analyze text settings).scopes.references
        (analyze (TextEdit.applyAll text edits) settings).scopes.references := by
  obtain ⟨names, hmentions, hselected, hrename⟩ := exists_rename?_var hsymbol hnew.isName
  have hrenamed := File.tables_respelled hselected hmentions hname hnew
  refine ⟨_, hrename, hrenamed.references.imp fun r r' hr => ?_⟩
  exact ScopeTable.effectiveValue?_renamed hrenamed hnew.bindings hplain hr.binding

/-- A value of the stage's own stays, and so does one that another stage takes from the file. -/
theorem rename_values_stage :
    let text := "ARG v=1\nFROM a\nARG v=2\nRUN $v\nFROM a\nARG v\nRUN $v".toList
    ((analyze text {}).symbolAt? ⟨2, 4⟩ = some (.var "v".toList (.stage 0), ⟨19, 20⟩) ∧
      (analyze text {}).scopes.IsFreshName "w".toList) ∧
    ∃ edits, (analyze text {}).rename? ⟨2, 4⟩ "w".toList = some edits ∧
      List.Forall₂ (fun r r' =>
        (analyze (TextEdit.applyAll text edits) {}).scopes.effectiveValue? r' =
          if ((analyze text {}).scopes.bindingOf? r).any (Binding.isParted "v".toList (.stage 0))
          then none else (analyze text {}).scopes.effectiveValue? r)
        (analyze text {}).scopes.references
        (analyze (TextEdit.applyAll text edits) {}).scopes.references := by
  intro text
  have hsymbol : (analyze text {}).symbolAt? ⟨2, 4⟩ =
      some (.var "v".toList (.stage 0), ⟨19, 20⟩) := by decide +kernel
  have hnew : (analyze text {}).scopes.IsFreshName "w".toList :=
    ⟨by decide, by decide +kernel, by decide +kernel⟩
  exact ⟨⟨hsymbol, hnew⟩, rename_values hsymbol (by decide) hnew (by decide +kernel)⟩

/-- Renamed in its stage or in the file alone, an `ARG` without a value takes none from the file any
more. -/
theorem rename_values_parted :
    let text := "ARG v=1\nFROM a\nARG v\nRUN echo $v".toList
    ((analyze text {}).symbolAt? ⟨3, 10⟩ = some (.var "v".toList (.stage 0), ⟨31, 32⟩) ∧
      Substitution.isName "v".toList = true ∧ (analyze text {}).scopes.IsFreshName "w".toList ∧
      ∀ b ∈ (analyze text {}).scopes.bindings, ∀ v ∈ b.value, '$' ∉ v) ∧
    ∃ edits, (analyze text {}).rename? ⟨3, 10⟩ "w".toList = some edits ∧
      (analyze text {}).scopes.references.map (analyze text {}).scopes.effectiveValue? =
        [some "1".toList] ∧
      (analyze (TextEdit.applyAll text edits) {}).scopes.references.map
        (analyze (TextEdit.applyAll text edits) {}).scopes.effectiveValue? = [none] := by
  intro text
  have hsymbol : (analyze text {}).symbolAt? ⟨3, 10⟩ =
      some (.var "v".toList (.stage 0), ⟨31, 32⟩) := by decide +kernel
  refine ⟨⟨hsymbol, by decide, ⟨by decide, by decide +kernel, by decide +kernel⟩,
    by decide +kernel⟩, ?_⟩
  refine ⟨[⟨⟨⟨2, 4⟩, ⟨2, 5⟩⟩, "w".toList⟩, ⟨⟨⟨3, 10⟩, ⟨3, 11⟩⟩, "w".toList⟩], ?_, ?_, ?_⟩
  · have hoccurrences : (analyze text {}).scopes.occurrences (.var "v".toList (.stage 0)) =
        [⟨⟨19, 20⟩, true⟩, ⟨⟨31, 32⟩, false⟩] := by
      refine (ScopeTable.sortByStart_eq_self ?_).trans ?_ <;> decide +kernel
    rw [rename?_eq hsymbol (by decide), hoccurrences]
    decide +kernel
  · decide +kernel
  · decide +kernel

end Variables

/-! ## Stages -/

/-- Renaming a stage gives it the name, and preserves which stages are referred to if the references
to the stage itself follow it, and only then. -/
theorem rename_stages {index : Nat}
    (hsymbol : (analyze text settings).symbolAt? position = some (.stage index, span))
    (hnew : (analyze text settings).scopes.IsFreshStageName newName) :
    ∃ edits, (analyze text settings).rename? position newName = some edits ∧
      List.Forall₂ (Stage.Renamed index newName) (analyze text settings).scopes.stages
        (analyze (TextEdit.applyAll text edits) settings).scopes.stages ∧
      ((analyze text settings).scopes.stageReferences.map (fun r => (r.instruction, r.stage)) =
          (analyze (TextEdit.applyAll text edits) settings).scopes.stageReferences.map
            (fun r => (r.instruction, r.stage)) ↔
        ∀ r ∈ (analyze text settings).scopes.stageReferences, r.stage = some index →
          Stage.Follows (analyze text settings).scopes.stages
            ((analyze text settings).scopes.sites[r.instruction]?.any Site.isFrom) index r.name) := by
  obtain ⟨names, hmentions, hselected, hrename⟩ := exists_rename? hsymbol hnew.isValid
    (File.stages_mentioned text)
    (ScopeTable.occurrences_stage (File.parse text).instructions index)
  exact ⟨_, hrename, (File.stages_respelled hselected hmentions hnew.isValid).1,
    File.stageReferences_respelled hselected hmentions hnew⟩

/-- A name in another case is renamed, and a number need not be. -/
theorem rename_stages_number :
    let text := "FROM a AS b\nFROM B\nCOPY --from=0 --from=b x y".toList
    ((analyze text {}).symbolAt? ⟨0, 10⟩ = some (.stage 0, ⟨10, 11⟩) ∧
      (analyze text {}).scopes.IsFreshStageName "c".toList) ∧
    ∃ edits, (analyze text {}).rename? ⟨0, 10⟩ "c".toList = some edits ∧
      List.Forall₂ (Stage.Renamed 0 "c".toList) (analyze text {}).scopes.stages
        (analyze (TextEdit.applyAll text edits) {}).scopes.stages ∧
      (analyze text {}).scopes.stageReferences.map (fun r => (r.instruction, r.stage)) =
        (analyze (TextEdit.applyAll text edits) {}).scopes.stageReferences.map
          (fun r => (r.instruction, r.stage)) := by
  intro text
  have hsymbol : (analyze text {}).symbolAt? ⟨0, 10⟩ = some (.stage 0, ⟨10, 11⟩) := by decide +kernel
  have hnew : (analyze text {}).scopes.IsFreshStageName "c".toList :=
    ⟨by decide, by decide +kernel, by decide +kernel, by decide +kernel⟩
  obtain ⟨edits, hrename, hstages, hsame⟩ := rename_stages hsymbol hnew
  exact ⟨⟨hsymbol, hnew⟩, edits, hrename, hstages, hsame.mpr (by decide +kernel)⟩

/-- Digits that are the name of a stage are taken for a number: they are not renamed, and stand for
another stage. -/
theorem rename_stages_digits :
    let text := "FROM a AS 1\nFROM b\nCOPY --from=1 x y".toList
    ((analyze text {}).symbolAt? ⟨0, 10⟩ = some (.stage 0, ⟨10, 11⟩) ∧
      (analyze text {}).scopes.IsFreshStageName "c".toList) ∧
    ∃ edits, (analyze text {}).rename? ⟨0, 10⟩ "c".toList = some edits ∧
      (analyze text {}).scopes.stageReferences.map (fun r => (r.instruction, r.stage)) =
        [(2, some 0)] ∧
      (analyze (TextEdit.applyAll text edits) {}).scopes.stageReferences.map
        (fun r => (r.instruction, r.stage)) = [(2, some 1)] := by
  intro text
  have hsymbol : (analyze text {}).symbolAt? ⟨0, 10⟩ = some (.stage 0, ⟨10, 11⟩) := by decide +kernel
  refine ⟨⟨hsymbol, by decide, by decide +kernel, by decide +kernel, by decide +kernel⟩,
    [⟨⟨⟨0, 10⟩, ⟨0, 11⟩⟩, "c".toList⟩], ?_, by decide +kernel, by decide +kernel⟩
  have hoccurrences : (analyze text {}).scopes.occurrences (.stage 0) = [⟨⟨10, 11⟩, true⟩] := by
    refine (ScopeTable.sortByStart_eq_self ?_).trans ?_ <;> decide +kernel
  rw [rename?_eq hsymbol (by decide), hoccurrences]
  decide +kernel

end Analysis

end Dockerfile
