import Dockerfile.Check.Arguments
import Dockerfile.Check.Flags

/-!
# Single instructions

The findings about one instruction, looked at by itself, are those about its keyword and those about
what stands behind it (`Check.instruction_of_kind`). Behind the keyword of an `ONBUILD` stands an
instruction, with a shorter region, that is checked like any other unless it is of a kind that cannot
be deferred.
-/

namespace Dockerfile

namespace Check

def ofKeyword (keyword : Keyword) (inst : Instruction) : List Finding :=
  match keyword with
  | .ADD | .COPY => copy inst
  | .ARG => arg inst
  | .CMD | .ENTRYPOINT | .RUN => command inst
  | .ENV | .LABEL => pairs keyword inst
  | .EXPOSE => inst.arguments.flatMap exposed
  | .FROM => fromImage inst
  | .HEALTHCHECK => healthcheck inst
  | .SHELL => shell inst
  | .STOPSIGNAL => stopsignal inst
  | .USER => singleArgument inst
  | .VOLUME => volume inst
  | .MAINTAINER | .ONBUILD | .WORKDIR => []

def keyword (k : Keyword) (inst : Instruction) : List Finding :=
  (if inst.keyword.text ≠ Text.uppercase inst.keyword.text then
    [⟨.casingInstruction, inst.keywordSpan⟩] else []) ++
  (if k = .MAINTAINER then [⟨.deprecatedMaintainer, inst.keywordSpan⟩] else [])

def instruction (inst : Instruction) : List Finding :=
  match inst.kind with
  | none => [⟨.unknownInstruction inst.keyword.text, inst.keywordSpan⟩]
  | some k =>
      keyword k inst ++
      if inst.arguments.isEmpty then
        [⟨.argumentMissing inst.keyword.text, inst.keywordSpan⟩]
      else
        (if k.checksQuotes && !(k = .VOLUME && isArrayVolume inst) then quotes inst else []) ++
        (if k.bearsFlags then flags k inst.flags else []) ++
        match _ht : inst.trigger? with
        | none => ofKeyword k inst
        | some trigger =>
            match trigger.kind with
            | some .ONBUILD => [⟨.onbuildChaining, trigger.keywordSpan⟩]
            | some .FROM | some .MAINTAINER =>
                [⟨.onbuildTrigger trigger.keyword.text, trigger.keywordSpan⟩]
            | _ => instruction trigger
termination_by inst.region.chars.length
decreasing_by exact Instruction.trigger?_length _ht

end Check

/-! ## The parts of a check -/

namespace Check

def deferred (trigger : Instruction) : List Finding :=
  match trigger.kind with
  | some .ONBUILD => [⟨.onbuildChaining, trigger.keywordSpan⟩]
  | some .FROM | some .MAINTAINER => [⟨.onbuildTrigger trigger.keyword.text, trigger.keywordSpan⟩]
  | _ => instruction trigger

def behindKeyword (k : Keyword) (inst : Instruction) : List Finding :=
  if inst.arguments.isEmpty then [⟨.argumentMissing inst.keyword.text, inst.keywordSpan⟩]
  else
    (if k.checksQuotes && !(k = .VOLUME && isArrayVolume inst) then quotes inst else []) ++
    (if k.bearsFlags then flags k inst.flags else []) ++
    match inst.trigger? with
    | none => ofKeyword k inst
    | some trigger => deferred trigger

theorem instruction_of_kind {inst : Instruction} {k : Keyword} (h : inst.kind = some k) :
    instruction inst = keyword k inst ++ behindKeyword k inst := by
  rw [instruction, h]
  simp only [behindKeyword]
  congr 2
  cases ht : inst.trigger? with
  | none => simp only
  | some trigger => rfl

theorem instruction_of_unknown {inst : Instruction} (h : inst.kind = none) :
    instruction inst = [⟨.unknownInstruction inst.keyword.text, inst.keywordSpan⟩] := by
  rw [instruction, h]

theorem kind_of_trigger? {inst trigger : Instruction} (h : inst.trigger? = some trigger) :
    inst.kind = some .ONBUILD := by
  unfold Instruction.trigger? at h
  split at h
  · rename_i hkind
    exact eq_of_beq hkind
  · cases h

end Check

end Dockerfile
