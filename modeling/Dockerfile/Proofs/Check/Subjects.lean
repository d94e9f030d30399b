import Dockerfile.Check.File

/-!
# What findings are about

The codes of findings are divided among the checks: by its code alone it is known whether a finding
was made of a directive, of a keyword, of arguments, of a line, or of instructions that do not go
together. So the findings with a given code can be counted in the one check that makes them.
-/

namespace Dockerfile

inductive Subject where
  | directive
  | keyword
  | argument
  | line
  | file
  deriving DecidableEq, Repr

def Code.subject : Code → Subject
  | casingDirective | unknownDirective | invalidEscapeDirective => .directive
  | casingInstruction | unknownInstruction | deprecatedMaintainer => .keyword
  | emptyContinuationLine => .line
  | noSourceImage | duplicateStageName | multipleInstructions => .file
  | _ => .argument

namespace Check

def About (subject : Subject) (findings : List Finding) : Prop :=
  ∀ f ∈ findings, f.problem.code.subject = subject

section Lists

variable {subject : Subject}

theorem about_nil : About subject [] := by
  intro f hf
  cases hf

theorem about_singleton {problem : Problem} {span : Span} (h : problem.code.subject = subject) :
    About subject [⟨problem, span⟩] := by
  intro f hf
  rw [List.mem_singleton] at hf
  rw [hf]
  exact h

theorem about_map {α : Type} {xs : List α} {problem : α → Problem} {span : α → Span}
    (h : ∀ x ∈ xs, (problem x).code.subject = subject) :
    About subject (xs.map fun x => ⟨problem x, span x⟩) := by
  intro f hf
  obtain ⟨x, hx, rfl⟩ := List.mem_map.mp hf
  exact h x hx

theorem About.append {a b : List Finding} (ha : About subject a) (hb : About subject b) :
    About subject (a ++ b) := by
  intro f hf
  rcases List.mem_append.mp hf with hf | hf
  · exact ha f hf
  · exact hb f hf

theorem about_flatMap {α : Type} {xs : List α} {check : α → List Finding}
    (h : ∀ x ∈ xs, About subject (check x)) : About subject (xs.flatMap check) := by
  intro f hf
  obtain ⟨x, hx, hf⟩ := List.mem_flatMap.mp hf
  exact h x hx f hf

theorem about_ite {c : Prop} [Decidable c] {a b : List Finding} (ha : About subject a)
    (hb : About subject b) : About subject (if c then a else b) := by
  split
  · exact ha
  · exact hb

/-- Findings with one code are not counted among those with another. -/
theorem countP_eq_zero_of_code {findings : List Finding} {code given : Code} {p : Finding → Bool}
    (hp : ∀ f, p f = true → f.problem.code = code) (hne : given ≠ code)
    (h : ∀ f ∈ findings, f.problem.code = given) : findings.countP p = 0 := by
  rw [List.countP_eq_zero]
  intro f hf hpf
  exact hne ((h f hf).symm.trans (hp f hpf))

end Lists

/-! ## Single instructions -/

section Instructions

variable (inst : Instruction)

theorem quotes_argument : About .argument (quotes inst) := by
  intro f hf
  obtain ⟨arg, -, hf⟩ := List.mem_filterMap.mp hf
  obtain ⟨opened, -, rfl⟩ := Option.map_eq_some_iff.mp hf
  dsimp only
  split <;> rfl

theorem singleArgument_argument : About .argument (singleArgument inst) :=
  about_map fun _ _ => rfl

theorem arg_argument : About .argument (arg inst) := by
  refine .append ?_ (singleArgument_argument inst)
  split
  · exact about_ite (about_singleton rfl) about_nil
  · exact about_nil

theorem stopsignal_argument : About .argument (stopsignal inst) := by
  refine .append ?_ (singleArgument_argument inst)
  split
  · exact about_ite about_nil (about_singleton rfl)
  · exact about_nil

theorem pair_argument (k : Keyword) (p : Property) : About .argument (pair k p) :=
  about_ite about_nil (about_ite (about_singleton rfl) (about_ite (about_singleton rfl) about_nil))

theorem pairs_argument (k : Keyword) : About .argument (pairs k inst) := by
  unfold pairs
  split
  · exact about_ite (about_singleton rfl) (pair_argument k _)
  · exact about_flatMap fun p _ => pair_argument k p

theorem exposed_argument (arg : Argument) : About .argument (exposed arg) := by
  refine about_ite about_nil (.append (about_ite about_nil (about_singleton rfl)) ?_)
  split
  · exact about_nil
  · exact about_ite about_nil (about_singleton rfl)

theorem fromImage_argument : About .argument (fromImage inst) := by
  have hall (span : Span) : About .argument [⟨.argumentRequiresOneOrThree, span⟩] :=
    about_singleton rfl
  unfold fromImage
  split
  · exact about_singleton rfl
  · exact about_nil
  · exact about_ite (about_singleton rfl) (about_ite (about_singleton rfl) about_nil)
  · split
    · exact about_ite (about_map fun _ _ => rfl) (hall _)
    · exact hall _

theorem volume_argument : About .argument (volume inst) := by
  refine about_ite ?_ about_nil
  split
  · exact about_singleton rfl
  · exact about_nil

theorem shell_argument : About .argument (shell inst) := by
  unfold shell
  split
  · exact about_ite (about_singleton rfl) about_nil
  · exact about_singleton rfl

theorem command_argument : About .argument (command inst) := by
  refine about_ite ?_ about_nil
  split
  · exact about_singleton rfl
  · exact about_nil

theorem copy_argument : About .argument (copy inst) :=
  about_ite about_nil (about_singleton rfl)

theorem flags_argument (k : Keyword) (fs : List Flag) : About .argument (flags k fs) := by
  refine about_flatMap fun f _ => about_ite (about_singleton rfl) (.append ?_ ?_)
  · exact about_ite (about_singleton rfl) about_nil
  · split
    · exact about_ite about_nil (about_singleton rfl)
    · exact about_ite (about_singleton rfl) about_nil

theorem duration_subject {name value : Text} {problem : Problem}
    (h : duration name value = some problem) : problem.code.subject = .argument := by
  unfold duration at h
  split at h
  · split at h <;> cases h
    rfl
  all_goals
    cases h
    rfl

theorem retries_subject {value : Text} {problem : Problem} (h : retries value = some problem) :
    problem.code.subject = .argument := by
  unfold retries at h
  split at h
  · split at h <;> cases h
    rfl
  · cases h
    rfl

theorem healthcheckFlag_argument (f : Flag) : About .argument (healthcheckFlag f) := by
  unfold healthcheckFlag
  split
  · exact about_nil
  · refine about_ite about_nil (about_map fun problem hproblem => ?_)
    rw [Option.mem_toList] at hproblem
    split at hproblem
    · exact duration_subject hproblem
    · split at hproblem
      · exact retries_subject hproblem
      · cases hproblem

theorem healthcheck_argument : About .argument (healthcheck inst) := by
  refine .append (about_flatMap fun f _ => healthcheckFlag_argument f) ?_
  unfold healthcheckCommand
  split
  · exact about_singleton rfl
  · exact about_ite (about_map fun _ _ => rfl) (about_ite (about_singleton rfl) about_nil)

theorem ofKeyword_argument (k : Keyword) : About .argument (ofKeyword k inst) := by
  cases k with
  | ADD | COPY => exact copy_argument inst
  | ARG => exact arg_argument inst
  | CMD | ENTRYPOINT | RUN => exact command_argument inst
  | ENV | LABEL => exact pairs_argument inst _
  | EXPOSE => exact about_flatMap fun arg _ => exposed_argument arg
  | FROM => exact fromImage_argument inst
  | HEALTHCHECK => exact healthcheck_argument inst
  | SHELL => exact shell_argument inst
  | STOPSIGNAL => exact stopsignal_argument inst
  | USER => exact singleArgument_argument inst
  | VOLUME => exact volume_argument inst
  | MAINTAINER | ONBUILD | WORKDIR => exact about_nil

theorem keyword_keyword (k : Keyword) : About .keyword (keyword k inst) :=
  .append (about_ite (about_singleton rfl) about_nil) (about_ite (about_singleton rfl) about_nil)

/-- What is found in an instruction is about a keyword or about arguments. -/
theorem instruction_subject :
    ∀ f ∈ instruction inst, f.problem.code.subject = .keyword ∨ f.problem.code.subject = .argument := by
  fun_induction instruction inst with
  | case1 inst hkind =>
      intro f hf
      exact .inl (about_singleton rfl f hf)
  | case2 inst k hkind ih =>
      intro f hf
      rcases List.mem_append.mp hf with hf | hf
      · exact .inl (keyword_keyword inst k f hf)
      split at hf
      · exact .inr (about_singleton rfl f hf)
      rcases List.mem_append.mp hf with hf | hf
      · refine .inr (About.append ?_ ?_ f hf)
        · exact about_ite (quotes_argument inst) about_nil
        · exact about_ite (flags_argument k _) about_nil
      split at hf
      · exact .inr (ofKeyword_argument inst k f hf)
      · rename_i trigger htrigger
        split at hf
        · exact .inr (about_singleton rfl f hf)
        · exact .inr (about_singleton rfl f hf)
        · exact .inr (about_singleton rfl f hf)
        · exact ih trigger htrigger f hf

end Instructions

/-! ## Whole files -/

theorem directive_directive (d : Directive) : About .directive (directive d) :=
  .append (about_ite (about_singleton rfl) about_nil)
    (about_ite (about_singleton rfl) (about_ite (about_singleton rfl) about_nil))

theorem withEmptyLines_subject (inst : Instruction) :
    ∀ f ∈ withEmptyLines inst, f.problem.code.subject ≠ .file := by
  intro f hf
  rcases List.mem_append.mp hf with hf | hf
  · rcases instruction_subject inst f hf with h | h <;> rw [h] <;> decide
  · have hline : About .line (inst.emptyLines.map fun line => ⟨.emptyContinuationLine, line⟩) :=
      about_map fun _ _ => rfl
    rw [hline f hf]
    decide

theorem sourceImage_code {insts : List Instruction} :
    ∀ f ∈ sourceImage insts, f.problem.code = .noSourceImage := by
  unfold sourceImage
  split
  · simp [Problem.code]
  · split <;> simp [Problem.code]

end Check

end Dockerfile
