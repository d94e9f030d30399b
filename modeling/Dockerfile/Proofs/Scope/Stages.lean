import Dockerfile.Scope.Table
import Mathlib.Data.List.TakeWhile

/-!
# Stages as runs of instructions

A file is a run of instructions without a `FROM`, and then one run for each `FROM`
(`Instruction.eq_runs`). Scopes are defined from the numbered list of all instructions; the sites
of a scope are those of one of these runs (`Site.filter_scope`).
-/

namespace Dockerfile

namespace Instruction

def leading (insts : List Instruction) : List Instruction :=
  insts.takeWhile fun inst => !inst.isKind .FROM

def runs : List Instruction → List (Instruction × List Instruction)
  | [] => []
  | inst :: rest => if inst.isKind .FROM then (inst, leading rest) :: runs rest else runs rest

variable {inst : Instruction} {insts : List Instruction}

theorem leading_cons_from (h : inst.isKind .FROM = true) : leading (inst :: insts) = [] := by
  rw [leading, List.takeWhile_cons, h]
  rfl

theorem leading_cons (h : inst.isKind .FROM = false) :
    leading (inst :: insts) = inst :: leading insts := by
  rw [leading, List.takeWhile_cons, h]
  rfl

theorem runs_cons_from (h : inst.isKind .FROM = true) :
    runs (inst :: insts) = (inst, leading insts) :: runs insts := by
  rw [runs, if_pos h]

theorem runs_cons (h : inst.isKind .FROM = false) : runs (inst :: insts) = runs insts := by
  rw [runs, h]
  rfl

theorem not_from_of_mem_leading (h : inst ∈ leading insts) : inst.isKind .FROM = false := by
  simpa using List.mem_takeWhile_imp h

theorem eq_runs (insts : List Instruction) :
    insts = leading insts ++ (runs insts).flatMap fun run => run.1 :: run.2 := by
  induction insts with
  | nil => rfl
  | cons inst rest ih =>
      cases h : inst.isKind .FROM with
      | false => rw [leading_cons h, runs_cons h, List.cons_append, ← ih]
      | true => rw [leading_cons_from h, runs_cons_from h, List.flatMap_cons, List.nil_append,
          List.cons_append, ← ih]

theorem runs_spec {run : Instruction × List Instruction} (h : run ∈ runs insts) :
    run.1.isKind .FROM = true ∧ ∀ inst ∈ run.2, inst.isKind .FROM = false := by
  induction insts with
  | nil => cases h
  | cons inst rest ih =>
      cases hfrom : inst.isKind .FROM with
      | false => exact ih (by rwa [runs_cons hfrom] at h)
      | true =>
          rw [runs_cons_from hfrom] at h
          rcases List.mem_cons.mp h with rfl | h
          · exact ⟨hfrom, fun inst hinst => not_from_of_mem_leading hinst⟩
          · exact ih h

end Instruction

/-! ## Scopes -/

namespace Scope

def rank : Scope → Nat
  | global => 0
  | stage index => index + 1

@[simp] theorem rank_next (scope : Scope) : scope.next.rank = scope.rank + 1 := by
  cases scope <;> rfl

end Scope

namespace Site

variable {index : Nat} {scope : Scope} {insts : List Instruction} {inst : Instruction}

theorem isFrom_mk : (⟨index, scope, inst⟩ : Site).isFrom = inst.isKind .FROM := rfl

theorem ofInstructions_cons_from (h : inst.isKind .FROM = true) :
    ofInstructions index scope (inst :: insts) =
      ⟨index, scope.next, inst⟩ :: ofInstructions (index + 1) scope.next insts := by
  rw [ofInstructions, if_pos h]

theorem ofInstructions_cons (h : inst.isKind .FROM = false) :
    ofInstructions index scope (inst :: insts) =
      ⟨index, scope, inst⟩ :: ofInstructions (index + 1) scope insts := by
  rw [ofInstructions, h]
  rfl

/-- Scopes only go on, and a `FROM` opens a later one. -/
theorem rank_le {site : Site} (h : site ∈ ofInstructions index scope insts) :
    scope.rank ≤ site.scope.rank ∧ (site.isFrom = true → scope.rank < site.scope.rank) := by
  induction insts generalizing index scope with
  | nil => cases h
  | cons inst rest ih =>
      cases hfrom : inst.isKind .FROM with
      | false =>
          rw [ofInstructions_cons hfrom] at h
          rcases List.mem_cons.mp h with rfl | h
          · refine ⟨Nat.le_refl _, fun hsite => ?_⟩
            rw [isFrom, hfrom] at hsite
            cases hsite
          · exact ih h
      | true =>
          rw [ofInstructions_cons_from hfrom] at h
          rcases List.mem_cons.mp h with rfl | h
          · simp
          · have := (ih h).1
            simp only [Scope.rank_next] at this
            exact ⟨by omega, fun _ => by omega⟩

/-- The sites up to the next `FROM` are those in the scope without it. -/
theorem filter_scope (index : Nat) (scope : Scope) (insts : List Instruction) :
    ((ofInstructions index scope insts).filter fun s => s.scope == scope && !s.isFrom) =
      (ofInstructions index scope insts).takeWhile fun s => !s.isFrom := by
  induction insts generalizing index with
  | nil => rfl
  | cons inst rest ih =>
      cases hfrom : inst.isKind .FROM with
      | false =>
          rw [ofInstructions_cons hfrom, List.takeWhile_cons, List.filter_cons]
          simp only [isFrom_mk, hfrom, beq_self_eq_true, Bool.not_false, Bool.and_self, if_true]
          rw [← ih]
      | true =>
          rw [ofInstructions_cons_from hfrom, List.takeWhile_cons, List.filter_cons]
          simp only [isFrom_mk, hfrom, Bool.not_true, Bool.and_false, Bool.false_eq_true, if_false]
          refine List.filter_eq_nil_iff.mpr fun site hsite => ?_
          have hrank := (rank_le hsite).1
          rw [Scope.rank_next] at hrank
          simp only [Bool.and_eq_true, beq_iff_eq, not_and]
          rintro rfl
          omega

theorem takeWhile_instruction (index : Nat) (scope : Scope) (insts : List Instruction) :
    ((ofInstructions index scope insts).takeWhile fun s => !s.isFrom).map Site.instruction =
      Instruction.leading insts := by
  induction insts generalizing index with
  | nil => rfl
  | cons inst rest ih =>
      cases hfrom : inst.isKind .FROM with
      | false =>
          rw [ofInstructions_cons hfrom, Instruction.leading_cons hfrom, List.takeWhile_cons]
          simp only [isFrom_mk, hfrom, Bool.not_false, if_true, List.map_cons]
          rw [ih (index + 1)]
      | true =>
          rw [ofInstructions_cons_from hfrom, Instruction.leading_cons_from hfrom,
            List.takeWhile_cons]
          simp only [isFrom_mk, hfrom, Bool.not_true, Bool.false_eq_true, if_false, List.map_nil]

/-- In front of the first `FROM` the scope is the whole file. -/
theorem filter_global (insts : List Instruction) :
    ((ofInstructions 0 .global insts).filter fun s => s.scope == .global).map Site.instruction =
      Instruction.leading insts := by
  rw [← takeWhile_instruction 0 .global, ← filter_scope]
  congr 1
  refine List.filter_congr fun site hsite => ?_
  have hrank := (rank_le hsite).2
  cases hfrom : site.isFrom with
  | false => rw [Bool.not_false, Bool.and_true]
  | true =>
      have hrank := hrank hfrom
      have hne : site.scope ≠ .global := by
        intro heq
        rw [heq] at hrank
        omega
      simp [hne]

end Site

end Dockerfile
