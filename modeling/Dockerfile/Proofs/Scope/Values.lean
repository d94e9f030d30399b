import Dockerfile.Proofs.Scope.Tables

/-!
# Values under a new name

A reference stands for the value of its declaration, which a new name leaves as it is. Only an `ARG`
of a stage without a value depends on another declaration, by its name: it takes the value of the
declaration of that name for the whole file. A renaming stays in one scope, so it parts the two
(`ScopeTable.effectiveValue?_renamed`).
-/

namespace Dockerfile

theorem forall₂_getElem? {α β : Type} {R : α → β → Prop} {xs : List α} {ys : List β}
    (h : List.Forall₂ R xs ys) (i : Nat) : Option.Rel R xs[i]? ys[i]? := by
  induction h generalizing i with
  | nil => exact .none
  | cons hxy _ ih =>
      cases i with
      | zero => exact .some hxy
      | succ i => exact ih i

/-- A list with its numbers is the list, also from its end. -/
theorem reverse_eq_map_fst {α : Type} (xs : List α) :
    xs.reverse = xs.zipIdx.reverse.map Prod.fst := by
  rw [List.map_reverse, List.zipIdx_map_fst]

namespace Binding

/-- Whether a declaration takes its value from one of the same name for the whole file. -/
def inherits (b : Binding) : Bool :=
  b.value.isNone && b.kind == .arg && b.scope != .global

/-- Whether a renaming of a variable parts the declaration from the one it takes its value from: of
the two, only one is renamed. -/
def isParted (name : Text) (scope : Scope) (b : Binding) : Bool :=
  b.inherits && b.name == name && (scope == .global || scope == b.scope)

def globalValue? (bindings : List Binding) (name : Text) : Option Text :=
  (bindings.reverse.find? fun b => b.scope == .global && b.name == name).bind value

/-- Looking for a value depends on nothing but which declarations are looked for, and their values. -/
theorem globalValue?_congr {bindings bindings' : List Binding} {name name' : Text}
    (h : List.Forall₂ (fun b b' => b'.value = b.value ∧
      (b'.scope == .global && b'.name == name') = (b.scope == .global && b.name == name))
      bindings bindings') :
    globalValue? bindings' name' = globalValue? bindings name := by
  have hreverse := List.rel_reverse h
  unfold globalValue?
  generalize bindings.reverse = bs at hreverse
  generalize bindings'.reverse = bs' at hreverse
  induction hreverse with
  | nil => rfl
  | cons hb _ ih =>
      simp only [List.find?_cons, hb.2]
      split
      · exact hb.1
      · exact ih

theorem globalValue?_eq_none {bindings : List Binding} {name : Text}
    (h : ∀ b ∈ bindings, b.scope = .global → b.name ≠ name) : globalValue? bindings name = none := by
  unfold globalValue?
  rw [List.find?_eq_none.mpr, Option.bind_none]
  intro b hb
  simpa using h b (List.mem_reverse.mp hb)

section Renamed

variable {old new : Text} {within : Scope} {bindings bindings' : List Binding}
  (h : List.Forall₂ (Renamed old within new) bindings bindings')
  (hfresh : ∀ b ∈ bindings, b.name ≠ new)

include h hfresh

/-- A renamed declaration of a stage takes no value, for the file has no declaration of its name; nor
does one that has kept its name if the declaration for the file has been renamed. -/
theorem globalValue?_of_parted {b b' : Binding} (hmem : b ∈ bindings)
    (hb : Renamed old within new b b') (hparted : b.isParted old within = true) :
    globalValue? bindings' b'.name = none := by
  simp only [isParted, inherits, Bool.and_eq_true, beq_iff_eq, bne_iff_ne, Bool.or_eq_true] at hparted
  obtain ⟨⟨⟨-, hscope⟩, hname⟩, hwithin⟩ := hparted
  refine globalValue?_eq_none fun c' hc' hglobal => ?_
  obtain ⟨c, hc, hcc⟩ := exists_of_forall₂ h hc'
  have hfreshb := hfresh b hmem
  have hfreshc := hfresh c hc
  rw [hcc.scope] at hglobal
  rcases hwithin with rfl | rfl
  · -- The declaration of the stage keeps its name, those for the file have another.
    rw [hb.name, if_neg fun hin => hscope hin.2, hcc.name, hname]
    by_cases hold : c.name = old
    · rw [if_pos ⟨hold, hglobal⟩, ← hname]
      exact hfreshb.symm
    · rw [if_neg fun hin => hold hin.1]
      exact hold
  · -- The declaration of the stage has the new name, those for the file do not.
    rw [hb.name, if_pos ⟨hname, rfl⟩, hcc.name,
      if_neg fun hin => hscope (hin.2.symm.trans hglobal)]
    exact hfreshc

/-- Otherwise both keep their names. -/
theorem globalValue?_of_not_parted (hplain : ∀ b ∈ bindings, ∀ v ∈ b.value, '$' ∉ v) {b b' : Binding}
    (hmem : b ∈ bindings) (hb : Renamed old within new b b') (hinherits : b.inherits = true)
    (hparted : b.isParted old within = false) :
    globalValue? bindings' b'.name = globalValue? bindings b.name := by
  have hkept : ¬ (b.name = old ∧ (within = .global ∨ within = b.scope)) := by
    simpa [isParted, hinherits] using hparted
  have hname : b'.name = b.name := by
    rw [hb.name, if_neg fun hin => hkept ⟨hin.1, .inr hin.2.symm⟩]
  have hfreshb := hfresh b hmem
  rw [hname]
  refine globalValue?_congr ((forall₂_mem h).imp ?_)
  rintro c c' ⟨hc, -, hcc⟩
  refine ⟨hcc.value (hplain c hc), ?_⟩
  rw [hcc.scope, hcc.name]
  by_cases hrenamed : c.name = old ∧ c.scope = within
  · -- Where the declarations for the file are renamed, this one has another name.
    obtain ⟨rfl, rfl⟩ := hrenamed
    rw [if_pos ⟨rfl, rfl⟩]
    by_cases hglobal : c.scope = .global
    · have hne : c.name ≠ b.name := fun hsame => hkept ⟨hsame.symm, .inl hglobal⟩
      rw [beq_eq_false_iff_ne.mpr hne, beq_eq_false_iff_ne.mpr hfreshb.symm]
    · rw [beq_eq_false_iff_ne.mpr hglobal, Bool.false_and, Bool.false_and]
  · rw [if_neg hrenamed]

end Renamed

end Binding

namespace ScopeTable

def bindingOf? (table : ScopeTable) (r : VariableReference) : Option Binding :=
  r.binding.bind fun i => table.bindings[i]?

theorem effectiveValue?_eq (table : ScopeTable) (r : VariableReference) :
    table.effectiveValue? r = (table.bindingOf? r).bind fun b =>
      if b.inherits then Binding.globalValue? table.bindings b.name else b.value := by
  unfold effectiveValue? bindingOf?
  cases r.binding with
  | none => rfl
  | some i =>
      simp only [Option.bind_eq_bind, Option.bind_some]
      cases table.bindings[i]? with
      | none => rfl
      | some b =>
          simp only [Option.bind_some]
          unfold Binding.inherits
          cases hvalue : b.value with
          | some v => rfl
          | none => rfl

/-- After a renaming each reference has the value it had, except where it refers to an `ARG` that is
parted from the declaration it takes its value from: then it has none. -/
theorem effectiveValue?_renamed {old new : Text} {within : Scope} {table table' : ScopeTable}
    (h : Renamed old within new table table') (hfresh : ∀ b ∈ table.bindings, b.name ≠ new)
    (hplain : ∀ b ∈ table.bindings, ∀ v ∈ b.value, '$' ∉ v) {r r' : VariableReference}
    (hr : r'.binding = r.binding) :
    table'.effectiveValue? r' =
      if (table.bindingOf? r).any (Binding.isParted old within) then none
      else table.effectiveValue? r := by
  rw [effectiveValue?_eq, effectiveValue?_eq, bindingOf?, bindingOf?, hr]
  cases r.binding with
  | none => rfl
  | some i =>
      simp only [Option.bind_some]
      have hget := forall₂_getElem? (forall₂_mem h.bindings) i
      generalize table.bindings[i]? = b? at hget
      generalize table'.bindings[i]? = b'? at hget
      cases hget with
      | none => rfl
      | @some b b' hb =>
          obtain ⟨hmem, -, hb⟩ := hb
          have hvalue := hb.value (hplain b hmem)
          have hinherits : b'.inherits = b.inherits := by
            rw [Binding.inherits, Binding.inherits, hvalue, hb.kind, hb.scope]
          simp only [Option.bind_some, Option.any_some, hinherits, hvalue]
          by_cases hparted : b.isParted old within = true
          · have hin : b.inherits = true := by
              simp only [Binding.isParted, Bool.and_eq_true] at hparted
              exact hparted.1.1
            rw [if_pos hin, if_pos hparted]
            exact Binding.globalValue?_of_parted h.bindings hfresh hmem hb hparted
          · rw [if_neg hparted]
            by_cases hin : b.inherits = true
            · rw [if_pos hin, if_pos hin]
              exact Binding.globalValue?_of_not_parted h.bindings hfresh hplain hmem hb hin
                (Bool.eq_false_iff.mpr hparted)
            · rw [if_neg hin, if_neg hin]

end ScopeTable

end Dockerfile
