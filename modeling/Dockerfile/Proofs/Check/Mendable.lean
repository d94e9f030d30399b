import Dockerfile.Editor.QuickFix
import Dockerfile.Check.Instruction
import Dockerfile.Proofs.Check.Repetition
import Dockerfile.Proofs.Check.Subjects

/-!
# What can be mended

Fixes are offered by the code of a finding alone. The checks make a finding with such a code only at
a keyword, an argument, the name of a flag or an array of the instruction that they look at
(`Check.mendable_of_mem`), and that instruction is one of the file or one that an `ONBUILD` defers.
-/

namespace Dockerfile

/-- What a finding that can be mended is about: a part of the instruction, by its code. -/
inductive Instruction.Mendable (inst : Instruction) : Code → Span → Prop
  | casing : Mendable inst .casingInstruction inst.keywordSpan
  | maintainer (kind : inst.kind = some .MAINTAINER) :
      Mendable inst .deprecatedMaintainer inst.keywordSpan
  | as {image as name : Argument} (kind : inst.kind = some .FROM)
      (arguments : inst.positional = [image, as, name]) : Mendable inst .invalidAs as.span
  | unnecessary {first arg : Argument} {rest : List Argument} (kind : inst.kind = some .HEALTHCHECK)
      (arguments : inst.positional = first :: rest) (mem : arg ∈ rest) :
      Mendable inst .argumentUnnecessary arg.span
  | further {arg : Argument} (mem : arg ∈ inst.arguments.drop 1) :
      Mendable inst .argumentRequiresOne arg.span
  | extra {image as name arg : Argument} {rest : List Argument} (kind : inst.kind = some .FROM)
      (arguments : inst.positional = image :: as :: name :: rest) (mem : arg ∈ rest) :
      Mendable inst .argumentExtra arg.span
  | flag {f : Flag} {k : Keyword} (kind : inst.kind = some k) (mem : f ∈ inst.flags)
      (known : (FlagSpec.ofKeyword k).knows f.name.text = true) :
      Mendable inst .flagDuplicate f.name.span
  | quotes {array : StringArray} (parse : StringArray.parse '\x27' inst.escape inst.region = .ok array) :
      Mendable inst .singleQuotedArray array.span

namespace Check

/-- Whatever is found that can be mended is about a part of the instruction. -/
def Mends (inst : Instruction) (findings : List Finding) : Prop :=
  ∀ f ∈ findings, Fix.offers f.problem.code ≠ [] → inst.Mendable f.problem.code f.span

section Lists

variable {inst : Instruction}

theorem mends_nil : Mends inst [] := by
  intro f hf
  cases hf

theorem mends_plain {problem : Problem} {span : Span} (h : Fix.offers problem.code = []) :
    Mends inst [⟨problem, span⟩] := by
  intro f hf hoffer
  rw [List.mem_singleton.mp hf] at hoffer
  exact absurd h hoffer

theorem mends_singleton {problem : Problem} {span : Span} (h : inst.Mendable problem.code span) :
    Mends inst [⟨problem, span⟩] := by
  intro f hf _
  rwa [List.mem_singleton.mp hf]

theorem mends_map {α : Type} {xs : List α} {problem : α → Problem} {span : α → Span}
    (h : ∀ x ∈ xs, Fix.offers (problem x).code ≠ [] → inst.Mendable (problem x).code (span x)) :
    Mends inst (xs.map fun x => ⟨problem x, span x⟩) := by
  intro f hf
  obtain ⟨x, hx, rfl⟩ := List.mem_map.mp hf
  exact h x hx

theorem Mends.append {a b : List Finding} (ha : Mends inst a) (hb : Mends inst b) :
    Mends inst (a ++ b) := by
  intro f hf
  rcases List.mem_append.mp hf with hf | hf
  · exact ha f hf
  · exact hb f hf

theorem mends_flatMap {α : Type} {xs : List α} {check : α → List Finding}
    (h : ∀ x ∈ xs, Mends inst (check x)) : Mends inst (xs.flatMap check) := by
  intro f hf
  obtain ⟨x, hx, hf⟩ := List.mem_flatMap.mp hf
  exact h x hx f hf

theorem mends_ite {c : Prop} [Decidable c] {a b : List Finding} (ha : c → Mends inst a)
    (hb : ¬c → Mends inst b) : Mends inst (if c then a else b) := by
  split
  · rename_i h
    exact ha h
  · rename_i h
    exact hb h

end Lists

/-! ## Arguments and flags -/

section Arguments

variable (inst : Instruction)

theorem quotes_mends : Mends inst (quotes inst) := by
  intro f hf hoffer
  obtain ⟨arg, -, hf⟩ := List.mem_filterMap.mp hf
  obtain ⟨opened, -, rfl⟩ := Option.map_eq_some_iff.mp hf
  refine absurd ?_ hoffer
  dsimp only
  split <;> rfl

theorem singleArgument_mends : Mends inst (singleArgument inst) :=
  mends_map fun _ harg _ => .further harg

theorem arg_mends : Mends inst (arg inst) := by
  refine .append ?_ (singleArgument_mends inst)
  split
  · exact mends_ite (fun _ => mends_plain rfl) fun _ => mends_nil
  · exact mends_nil

theorem stopsignal_mends : Mends inst (stopsignal inst) := by
  refine .append ?_ (singleArgument_mends inst)
  split
  · exact mends_ite (fun _ => mends_nil) fun _ => mends_plain rfl
  · exact mends_nil

theorem pair_mends (k : Keyword) (p : Property) : Mends inst (pair k p) :=
  mends_ite (fun _ => mends_nil) fun _ => mends_ite (fun _ => mends_plain rfl) fun _ =>
    mends_ite (fun _ => mends_plain rfl) fun _ => mends_nil

theorem pairs_mends (k : Keyword) : Mends inst (pairs k inst) := by
  unfold pairs
  split
  · exact mends_ite (fun _ => mends_plain rfl) fun _ => pair_mends inst k _
  · exact mends_flatMap fun p _ => pair_mends inst k p

theorem exposed_mends (arg : Argument) : Mends inst (exposed arg) := by
  refine mends_ite (fun _ => mends_nil) fun _ => .append ?_ ?_
  · exact mends_ite (fun _ => mends_nil) fun _ => mends_plain rfl
  · split
    · exact mends_nil
    · exact mends_ite (fun _ => mends_nil) fun _ => mends_plain rfl

theorem fromImage_mends (hkind : inst.kind = some .FROM) : Mends inst (fromImage inst) := by
  have hall (span : Span) : Mends inst [⟨.argumentRequiresOneOrThree, span⟩] := mends_plain rfl
  unfold fromImage
  split
  · exact mends_plain rfl
  · exact mends_nil
  · rename_i image as name hargs
    exact mends_ite (fun _ => mends_singleton (.as hkind hargs)) fun _ =>
      mends_ite (fun _ => mends_plain rfl) fun _ => mends_nil
  · split
    · rename_i hargs
      exact mends_ite (fun _ => mends_map fun arg harg _ => .extra hkind hargs harg) fun _ => hall _
    · exact hall _

theorem volume_mends : Mends inst (volume inst) := by
  refine mends_ite (fun _ => ?_) fun _ => mends_nil
  split
  · exact mends_plain rfl
  · exact mends_nil

theorem shell_mends : Mends inst (shell inst) := by
  unfold shell
  split
  · exact mends_ite (fun _ => mends_plain rfl) fun _ => mends_nil
  · exact mends_plain rfl

theorem command_mends : Mends inst (command inst) := by
  refine mends_ite (fun _ => ?_) fun _ => mends_nil
  split
  · rename_i array harray
    exact mends_singleton (.quotes harray)
  · exact mends_nil

theorem copy_mends : Mends inst (copy inst) :=
  mends_ite (fun _ => mends_nil) fun _ => mends_plain rfl

theorem flags_mends {k : Keyword} (hkind : inst.kind = some k) : Mends inst (flags k inst.flags) := by
  refine mends_flatMap fun f hf => mends_ite (fun _ => mends_plain rfl) fun hknown => ?_
  have hknown : (FlagSpec.ofKeyword k).knows f.name.text = true := by simpa using hknown
  refine .append (mends_ite (fun _ => ?_) fun _ => mends_nil) ?_
  · exact mends_singleton (.flag hkind hf hknown)
  · split
    · exact mends_ite (fun _ => mends_nil) fun _ => mends_plain rfl
    · exact mends_ite (fun _ => mends_plain rfl) fun _ => mends_nil

theorem offers_duration {name value : Text} {problem : Problem}
    (h : duration name value = some problem) : Fix.offers problem.code = [] := by
  unfold duration at h
  split at h
  · split at h <;> cases h
    rfl
  all_goals
    cases h
    rfl

theorem offers_retries {value : Text} {problem : Problem} (h : retries value = some problem) :
    Fix.offers problem.code = [] := by
  unfold retries at h
  split at h
  · split at h <;> cases h
    rfl
  · cases h
    rfl

theorem healthcheckFlag_mends (f : Flag) : Mends inst (healthcheckFlag f) := by
  unfold healthcheckFlag
  split
  · exact mends_nil
  · refine mends_ite (fun _ => mends_nil) fun _ => mends_map fun problem hproblem hoffer => ?_
    refine absurd ?_ hoffer
    rw [Option.mem_toList] at hproblem
    split at hproblem
    · exact offers_duration hproblem
    · split at hproblem
      · exact offers_retries hproblem
      · cases hproblem

theorem healthcheck_mends (hkind : inst.kind = some .HEALTHCHECK) :
    Mends inst (healthcheck inst) := by
  refine .append (mends_flatMap fun f _ => healthcheckFlag_mends inst f) ?_
  unfold healthcheckCommand
  split
  · exact mends_plain rfl
  · rename_i first rest hargs
    exact mends_ite (fun _ => mends_map fun arg harg _ => .unnecessary hkind hargs harg) fun _ =>
      mends_ite (fun _ => mends_plain rfl) fun _ => mends_nil

theorem ofKeyword_mends {k : Keyword} (hkind : inst.kind = some k) :
    Mends inst (ofKeyword k inst) := by
  cases k with
  | ADD | COPY => exact copy_mends inst
  | ARG => exact arg_mends inst
  | CMD | ENTRYPOINT | RUN => exact command_mends inst
  | ENV | LABEL => exact pairs_mends inst _
  | EXPOSE => exact mends_flatMap fun arg _ => exposed_mends inst arg
  | FROM => exact fromImage_mends inst hkind
  | HEALTHCHECK => exact healthcheck_mends inst hkind
  | SHELL => exact shell_mends inst
  | STOPSIGNAL => exact stopsignal_mends inst
  | USER => exact singleArgument_mends inst
  | VOLUME => exact volume_mends inst
  | MAINTAINER | ONBUILD | WORKDIR => exact mends_nil

theorem keyword_mends {k : Keyword} (hkind : inst.kind = some k) : Mends inst (keyword k inst) := by
  refine .append ?_ ?_
  · exact mends_ite (fun _ => mends_singleton .casing) fun _ => mends_nil
  · refine mends_ite (fun h => mends_singleton (.maintainer ?_)) fun _ => mends_nil
    rw [hkind, h]

/-- An instruction that defers none is looked at by itself. -/
theorem instruction_mends {inst : Instruction} (h : inst.trigger? = none) :
    Mends inst (instruction inst) := by
  cases hkind : inst.kind with
  | none =>
      rw [instruction_of_unknown hkind]
      exact mends_plain rfl
  | some k =>
      rw [instruction_of_kind hkind]
      refine .append (keyword_mends inst hkind) (mends_ite (fun _ => mends_plain rfl) fun _ => ?_)
      refine .append (.append ?_ ?_) ?_
      · exact mends_ite (fun _ => quotes_mends inst) fun _ => mends_nil
      · exact mends_ite (fun _ => flags_mends inst hkind) fun _ => mends_nil
      · rw [h]
        exact ofKeyword_mends inst hkind

end Arguments

/-! ## Instructions -/

/-- The instruction stands in the file, or in an `ONBUILD` there. In that place there is no `FROM`, no
`MAINTAINER` and no other `ONBUILD` that is looked into. -/
def Reaches (inst t : Instruction) : Prop :=
  t = inst ∨ inst.trigger? = some t ∧ ∀ k ∈ t.kind, k ≠ .FROM ∧ k ≠ .MAINTAINER ∧ k ≠ .ONBUILD

theorem deferred_mends {inst trigger : Instruction} (h : inst.trigger? = some trigger) :
    ∀ f ∈ deferred trigger, Fix.offers f.problem.code ≠ [] →
      Reaches inst trigger ∧ trigger.Mendable f.problem.code f.span := by
  intro f hf hoffer
  -- That an instruction cannot be deferred is reported, and nothing else about it.
  have hplain : ∀ {problem : Problem}, f ∈ [(⟨problem, trigger.keywordSpan⟩ : Finding)] →
      Fix.offers problem.code = [] → False := by
    intro problem hmem hnone
    rw [List.mem_singleton.mp hmem] at hoffer
    exact hoffer hnone
  unfold deferred at hf
  split at hf
  · exact (hplain hf rfl).elim
  · exact (hplain hf rfl).elim
  · exact (hplain hf rfl).elim
  · rename_i hchain hfrom hmaintainer
    have hnone : trigger.trigger? = none := by
      rw [Option.eq_none_iff_forall_not_mem]
      exact fun t ht => hchain (kind_of_trigger? ht)
    refine ⟨.inr ⟨h, fun k hk => ⟨?_, ?_, ?_⟩⟩, instruction_mends hnone f hf hoffer⟩
    · rintro rfl
      exact hfrom hk
    · rintro rfl
      exact hmaintainer hk
    · rintro rfl
      exact hchain hk

/-- A finding in an instruction for which a fix is offered is about a part of that instruction, or of
the one that it defers. -/
theorem mendable_of_mem {inst : Instruction} {f : Finding} (hf : f ∈ instruction inst)
    (hoffer : Fix.offers f.problem.code ≠ []) :
    ∃ t, Reaches inst t ∧ t.Mendable f.problem.code f.span := by
  cases htrigger : inst.trigger? with
  | none => exact ⟨inst, .inl rfl, instruction_mends htrigger f hf hoffer⟩
  | some trigger =>
      have hkind := kind_of_trigger? htrigger
      rw [instruction_of_kind hkind] at hf
      have hself : ∀ {findings : List Finding}, Mends inst findings → f ∈ findings →
          ∃ t, Reaches inst t ∧ t.Mendable f.problem.code f.span :=
        fun h hmem => ⟨inst, .inl rfl, h f hmem hoffer⟩
      rcases List.mem_append.mp hf with hf | hf
      · exact hself (keyword_mends inst hkind) hf
      unfold behindKeyword at hf
      split at hf
      · exact hself (mends_plain rfl) hf
      rw [htrigger] at hf
      rcases List.mem_append.mp hf with hf | hf
      · rcases List.mem_append.mp hf with hf | hf
        · exact hself (mends_ite (fun _ => quotes_mends inst) fun _ => mends_nil) hf
        · exact hself (mends_ite (fun _ => flags_mends inst hkind) fun _ => mends_nil) hf
      · exact ⟨trigger, deferred_mends htrigger f hf hoffer⟩

/-- Of the findings about a whole file, only those about directives, instructions and blank lines in
them can be mended. -/
theorem offered_of_file {file : File} {scopes : ScopeTable} {f : Finding}
    (hf : f ∈ Check.file file scopes) (hoffer : Fix.offers f.problem.code ≠ []) :
    (∃ d ∈ file.directives, f ∈ directive d) ∨
      ∃ inst ∈ file.instructions, f ∈ instruction inst ∨
        f.problem = .emptyContinuationLine ∧ f.span ∈ inst.emptyLines := by
  have hcode : ∀ {findings : List Finding} {code : Code}, Fix.offers code = [] →
      (∀ g ∈ findings, g.problem.code = code) → f ∉ findings := by
    intro findings code hnone hall hmem
    rw [hall f hmem] at hoffer
    exact hoffer hnone
  unfold Check.file at hf
  simp only [List.mem_append] at hf
  rcases hf with (((((hf | hf) | hf) | hf) | hf) | hf) | hf
  · exact .inl (List.mem_flatMap.mp hf)
  · exact absurd hf (hcode rfl sourceImage_code)
  · obtain ⟨inst, hinst, hf⟩ := List.mem_flatMap.mp hf
    refine .inr ⟨inst, hinst, ?_⟩
    rcases List.mem_append.mp hf with hf | hf
    · exact .inl hf
    · obtain ⟨line, hline, rfl⟩ := List.mem_map.mp hf
      exact .inr ⟨rfl, hline⟩
  · exact absurd hf (hcode rfl duplicateStages_code)
  · exact absurd hf (hcode rfl overridden_code)
  · exact absurd hf (hcode rfl overridden_code)
  · exact absurd hf (hcode rfl overridden_code)

end Check

end Dockerfile
