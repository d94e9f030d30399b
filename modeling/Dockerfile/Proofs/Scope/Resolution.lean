import Mathlib.Data.List.Forall2
import Mathlib.Logic.Equiv.Basic
import Dockerfile.Scope.Symbol

/-!
# Resolution under a new name

Where all declarations of a name in one scope, and all references to them, get a name that occurs
nowhere else, each reference is resolved to the declaration it was resolved to
(`Binding.resolve?_renamed`).
-/

namespace Dockerfile

namespace Binding

/-- The declaration under its new name, if it declares the old one in the scope `within`. Its value
is the same unless there is a dollar sign in it. -/
structure Renamed (old : Text) (within : Scope) (new : Text) (b b' : Binding) : Prop where
  scope : b'.scope = b.scope
  kind : b'.kind = b.kind
  instruction : b'.instruction = b.instruction
  name : b'.name = if b.name = old ∧ b.scope = within then new else b.name
  value : (∀ v ∈ b.value, '$' ∉ v) → b'.value = b.value

def isSought (name : Text) (scope : Scope) (limit : Nat) (b : Binding) : Bool :=
  b.scope == scope && b.instruction < limit && b.name == name

theorem latest?_eq (bindings : List Binding) (name : Text) (scope : Scope) (limit : Nat) :
    latest? bindings name scope limit =
      (bindings.zipIdx.reverse.find? fun b => isSought name scope limit b.1).map Prod.snd := rfl

/-- Looking for the last declaration depends on nothing but which are looked for. -/
theorem latest?_congr {bindings bindings' : List Binding} {name name' : Text} {scope : Scope}
    {limit : Nat}
    (h : List.Forall₂ (fun b b' => isSought name' scope limit b' = isSought name scope limit b)
      bindings bindings') :
    latest? bindings' name' scope limit = latest? bindings name scope limit := by
  rw [latest?_eq, latest?_eq]
  generalize 0 = start
  induction h generalizing start with
  | nil => rfl
  | cons hb _ ih =>
      simp only [List.zipIdx_cons, List.reverse_cons, List.find?_append, Option.map_or, ih (start + 1),
        List.find?_cons, List.find?_nil, hb]
      split <;> rfl

theorem exists_of_latest? {bindings : List Binding} {name : Text} {scope : Scope} {limit index : Nat}
    (h : latest? bindings name scope limit = some index) :
    ∃ b, bindings[index]? = some b ∧ b.scope = scope ∧ b.name = name := by
  rw [latest?_eq] at h
  obtain ⟨found, hfind, rfl⟩ := Option.map_eq_some_iff.mp h
  have hmem := List.mem_of_find?_eq_some hfind
  have hsought := List.find?_some hfind
  simp only [isSought, Bool.and_eq_true, beq_iff_eq] at hsought
  exact ⟨found.1, List.mem_zipIdx_iff_getElem?.mp (List.mem_reverse.mp hmem), hsought.1.1, hsought.2⟩

theorem latest?_eq_none {bindings : List Binding} {name : Text}
    (h : ∀ b ∈ bindings, b.name ≠ name) (scope : Scope) (limit : Nat) :
    latest? bindings name scope limit = none := by
  cases hlatest : latest? bindings name scope limit with
  | none => rfl
  | some index =>
      obtain ⟨b, hb, -, hname⟩ := exists_of_latest? hlatest
      exact absurd hname (h b (List.mem_of_getElem? hb))

section Renamed

variable {old new : Text} {within : Scope} {bindings bindings' : List Binding}
  (h : List.Forall₂ (Renamed old within new) bindings bindings')
  (hfresh : ∀ b ∈ bindings, b.name ≠ new)

include h hfresh

/-- In the scope of a renaming the two names have changed places, for the new one was not there; in
other scopes all names are found where they were. -/
theorem latest?_renamed (name : Text) (scope : Scope) (limit : Nat) :
    latest? bindings' (if scope = within then Equiv.swap old new name else name) scope limit =
      latest? bindings name scope limit := by
  refine latest?_congr (((List.forall₂_and_left _ _).mpr ⟨hfresh, h⟩).imp fun b b' hb => ?_)
  obtain ⟨hnew, hb⟩ := hb
  simp only [isSought, hb.scope, hb.instruction]
  by_cases hscope : b.scope = scope
  · have hname : b'.name = if scope = within then Equiv.swap old new b.name else b.name := by
      rw [hb.name, hscope]
      by_cases hwithin : scope = within
      · by_cases hold : b.name = old
        · rw [if_pos ⟨hold, hwithin⟩, if_pos hwithin, hold, Equiv.swap_apply_left]
        · rw [if_neg fun hin => hold hin.1, if_pos hwithin, Equiv.swap_apply_of_ne_of_ne hold hnew]
      · rw [if_neg fun hin => hwithin hin.2, if_neg hwithin]
    rw [hname]
    by_cases hwithin : scope = within
    · rw [if_pos hwithin, if_pos hwithin, Bool.eq_iff_iff]
      simp only [Bool.and_eq_true, beq_iff_eq, EmbeddingLike.apply_eq_iff_eq]
    · rw [if_neg hwithin, if_neg hwithin]
  · have hother : (b.scope == scope) = false := beq_eq_false_iff_ne.mpr hscope
    rw [hother]
    rfl

theorem latest?_renamed_old (scope : Scope) (limit : Nat) :
    latest? bindings' old scope limit =
      if scope = within then none else latest? bindings old scope limit := by
  by_cases hwithin : scope = within
  · have hswap := latest?_renamed h hfresh new scope limit
    rw [if_pos hwithin, Equiv.swap_apply_right, latest?_eq_none hfresh] at hswap
    rw [if_pos hwithin, hswap]
  · have hsame := latest?_renamed h hfresh old scope limit
    rw [if_neg hwithin] at hsame
    rw [if_neg hwithin, hsame]

/-- The new name is found in the scope of the renaming where the old one was, and nowhere else. -/
theorem latest?_renamed_new (scope : Scope) (limit : Nat) :
    latest? bindings' new scope limit =
      if scope = within then latest? bindings old scope limit else none := by
  by_cases hwithin : scope = within
  · have hswap := latest?_renamed h hfresh old scope limit
    rw [if_pos hwithin, Equiv.swap_apply_left] at hswap
    rw [if_pos hwithin, hswap]
  · have hsame := latest?_renamed h hfresh new scope limit
    rw [if_neg hwithin, latest?_eq_none hfresh] at hsame
    rw [if_neg hwithin, hsame]

end Renamed

/-- The scope of the declaration that a reference is resolved to, or else its own. -/
def scopeFound (bindings : List Binding) (name : Text) (limit : Nat) (scope : Scope)
    (inFrom : Bool) : Scope :=
  if inFrom = false ∧ (latest? bindings name scope limit).isSome then scope
  else if (latest? bindings name .global limit).isSome then .global
  else scope

/-- A reference that gets the new name where its declaration does is resolved as before. -/
theorem resolve?_renamed {old new : Text} {within : Scope} {bindings bindings' : List Binding}
    (h : List.Forall₂ (Renamed old within new) bindings bindings')
    (hfresh : ∀ b ∈ bindings, b.name ≠ new) {name : Text} (hname : name ≠ new) (limit : Nat)
    (scope : Scope) (inFrom : Bool) :
    resolve? bindings' (if name = old ∧ scopeFound bindings name limit scope inFrom = within then new
      else name) limit scope inFrom = resolve? bindings name limit scope inFrom := by
  by_cases hold : name = old
  · subst hold
    have hlost := fun s => latest?_renamed_old h hfresh s limit
    have hmoved := fun s => latest?_renamed_new h hfresh s limit
    -- Which of the two scopes has the name decides which of them the reference is known under.
    unfold resolve? scopeFound
    cases hlocal : latest? bindings name scope limit with
    | none => cases hglobal : latest? bindings name .global limit <;> grind
    | some i => cases hglobal : latest? bindings name .global limit <;> grind
  · have hsame (s : Scope) : latest? bindings' name s limit = latest? bindings name s limit := by
      have hswap := latest?_renamed h hfresh name s limit
      rwa [Equiv.swap_apply_of_ne_of_ne hold hname, ite_self] at hswap
    rw [if_neg fun hin => hold hin.1, resolve?, resolve?, hsame, hsame]

end Binding

namespace ScopeTable

theorem symbolScope_eq (table : ScopeTable) (r : VariableReference) {name : Text} {limit : Nat}
    (hbinding : r.binding = Binding.resolve? table.bindings name limit r.scope r.inFrom) :
    table.symbolScope r = Binding.scopeFound table.bindings name limit r.scope r.inFrom := by
  have hfound {scope : Scope} {index : Nat}
      (h : Binding.latest? table.bindings name scope limit = some index) :
      ∃ b, table.bindings[index]? = some b ∧ b.scope = scope := by
    obtain ⟨b, hb, hscope, -⟩ := Binding.exists_of_latest? h
    exact ⟨b, hb, hscope⟩
  unfold symbolScope Binding.scopeFound
  rw [hbinding, Binding.resolve?]
  cases hlocal : Binding.latest? table.bindings name r.scope limit with
  | none => cases hglobal : Binding.latest? table.bindings name .global limit <;> grind
  | some i => cases hglobal : Binding.latest? table.bindings name .global limit <;> grind

end ScopeTable

end Dockerfile
