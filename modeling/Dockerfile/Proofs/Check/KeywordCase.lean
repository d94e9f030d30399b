import Dockerfile.Check.Instruction
import Dockerfile.Proofs.Check.Settings
import Dockerfile.Proofs.File.Recased
import Dockerfile.Scope.Table

/-!
# Findings in other cases

The checks use the spelling of a keyword only to quote it in upper case, and to report that it has
another case. All other findings about a file are the same whatever the case of its keywords
(`Check.uncased_file`), and so are their reports (`Check.diagnostics_uncased`).

All that is computed of an instruction depends on the kind of its keyword and on its place, and not
on its spelling. So the tables of a file are the same if keywords are written in upper case
(`ScopeTable.ofInstructions_capitalized`).
-/

namespace Dockerfile

/-! ## Scopes -/

theorem recasing_capitalized : Recasing Placed.capitalized :=
  ⟨fun _ => rfl, fun p => toLower_toUpper p.char⟩

namespace Instruction

variable (inst : Instruction)

@[simp] theorem region_capitalized : inst.capitalized.region = inst.region := rfl

@[simp] theorem escape_capitalized : inst.capitalized.escape = inst.escape := rfl

@[simp] theorem emptyLines_capitalized : inst.capitalized.emptyLines = inst.emptyLines := rfl

@[simp] theorem arguments_capitalized : inst.capitalized.arguments = inst.arguments := rfl

@[simp] theorem kind_capitalized : inst.capitalized.kind = inst.kind := by
  have hlower : Text.lowercase inst.capitalized.keyword.text = Text.lowercase inst.keyword.text :=
    recasing_capitalized.lowercase_text inst.keyword.chars
  simp only [kind, Keyword.ofText?, Text.sameIgnoringCase, hlower]

@[simp] theorem isKind_capitalized (k : Keyword) : inst.capitalized.isKind k = inst.isKind k := by
  rw [isKind, isKind, kind_capitalized]

@[simp] theorem keywordSpan_capitalized : inst.capitalized.keywordSpan = inst.keywordSpan :=
  recasing_capitalized.span inst.keyword

@[simp] theorem span_capitalized : inst.capitalized.span = inst.span := by
  simp only [span, keywordSpan_capitalized, region_capitalized]

@[simp] theorem bearsFlags_capitalized : inst.capitalized.bearsFlags = inst.bearsFlags := by
  rw [bearsFlags, bearsFlags, kind_capitalized]

@[simp] theorem flags_capitalized : inst.capitalized.flags = inst.flags := by
  rw [flags, flags, bearsFlags_capitalized, arguments_capitalized]

@[simp] theorem positional_capitalized : inst.capitalized.positional = inst.positional := by
  rw [positional, positional, bearsFlags_capitalized, arguments_capitalized]

@[simp] theorem positionalRegion_capitalized :
    inst.capitalized.positionalRegion = inst.positionalRegion := by
  rw [positionalRegion, positionalRegion, positional_capitalized, region_capitalized]

@[simp] theorem properties_capitalized : inst.capitalized.properties = inst.properties := by
  simp only [properties, arguments_capitalized, isKind_capitalized, region_capitalized]

@[simp] theorem trigger?_capitalized : inst.capitalized.trigger? = inst.trigger? := by
  simp only [trigger?, isKind_capitalized, region_capitalized, escape_capitalized]

end Instruction

/-- The site with the keyword of its instruction in upper case. -/
def Site.capitalized (site : Site) : Site :=
  { site with instruction := site.instruction.capitalized }

namespace Site

variable (site : Site)

@[simp] theorem index_capitalized : site.capitalized.index = site.index := rfl

@[simp] theorem scope_capitalized : site.capitalized.scope = site.scope := rfl

@[simp] theorem instruction_capitalized :
    site.capitalized.instruction = site.instruction.capitalized := rfl

@[simp] theorem isFrom_capitalized : site.capitalized.isFrom = site.isFrom :=
  site.instruction.isKind_capitalized .FROM

theorem ofInstructions_capitalized (index : Nat) (scope : Scope) (insts : List Instruction) :
    ofInstructions index scope (insts.map Instruction.capitalized) =
      (ofInstructions index scope insts).map capitalized := by
  induction insts generalizing index scope with
  | nil => rfl
  | cons inst insts ih =>
      simp only [List.map_cons, ofInstructions, Instruction.isKind_capitalized, ih]
      rfl

end Site

theorem Stage.ofSites_capitalized (sites : List Site) :
    ofSites (sites.map Site.capitalized) = ofSites sites := by
  have hsite (site : Site) (following : List Site) :
      ofSite site.capitalized (following.map Site.capitalized) = ofSite site following := by
    simp only [ofSite, declaredName?, List.foldl_map, Site.instruction_capitalized,
      Instruction.span_capitalized, Instruction.positional_capitalized, Site.scope_capitalized,
      Site.index_capitalized]
  have hfrom : (fun s : Site => !s.isFrom) ∘ Site.capitalized = fun s => !s.isFrom :=
    funext fun site => congrArg not site.isFrom_capitalized
  induction sites with
  | nil => rfl
  | cons site sites ih =>
      rw [List.map_cons, ofSites, ofSites, ih, Site.isFrom_capitalized, List.takeWhile_map, hfrom, hsite]

theorem Binding.ofSite_capitalized (site : Site) : ofSite site.capitalized = ofSite site := by
  simp only [ofSite, Site.instruction_capitalized, Instruction.kind_capitalized,
    Instruction.properties_capitalized, Instruction.escape_capitalized, Site.scope_capitalized,
    Site.index_capitalized]

theorem VariableReference.ofSite_capitalized (bindings : List Binding) (site : Site) :
    ofSite bindings site.capitalized = ofSite bindings site := by
  have hsubstituted (inst : Instruction) : substituted inst.capitalized = substituted inst := by
    simp only [substituted, declaresBehindBlank, declares, Instruction.isKind_capitalized,
      Instruction.properties_capitalized, Instruction.arguments_capitalized]
    rfl
  unfold ofSite
  rw [Site.instruction_capitalized, Instruction.trigger?_capitalized]
  cases site.instruction.trigger? with
  | none =>
      simp only [Option.getD_none, hsubstituted, Instruction.escape_capitalized,
        Instruction.isKind_capitalized, Site.index_capitalized, Site.scope_capitalized]
  | some trigger => rfl

theorem StageReference.ofSite_capitalized (stages : List Stage) (site : Site) :
    ofSite stages site.capitalized = ofSite stages site := by
  simp only [ofSite, Site.isFrom_capitalized, Site.instruction_capitalized,
    Instruction.isKind_capitalized, Instruction.positional_capitalized,
    Instruction.flags_capitalized, Site.scope_capitalized, Site.index_capitalized]

namespace ScopeTable

/-- The table with the keywords of its instructions in upper case. -/
def capitalized (table : ScopeTable) : ScopeTable :=
  { table with sites := table.sites.map Site.capitalized }

/-- The spelling of keywords has no part in what a file declares and uses. -/
theorem ofInstructions_capitalized (insts : List Instruction) :
    ofInstructions (insts.map Instruction.capitalized) = (ofInstructions insts).capitalized := by
  simp only [ofInstructions, Site.ofInstructions_capitalized, Stage.ofSites_capitalized,
    List.flatMap_map, Binding.ofSite_capitalized, VariableReference.ofSite_capitalized,
    StageReference.ofSite_capitalized]
  rfl

end ScopeTable

/-! ## Findings -/

theorem toUpper_toUpper (c : Char) : c.toUpper.toUpper = c.toUpper := by
  rw [← toUpper_toLower c.toUpper, toLower_toUpper, toUpper_toLower]

theorem Text.uppercase_uppercase (text : Text) : uppercase (uppercase text) = uppercase text := by
  rw [uppercase, uppercase, List.map_map]
  exact List.map_congr_left fun c _ => toUpper_toUpper c

theorem Instruction.uppercase_capitalized (inst : Instruction) :
    Text.uppercase inst.capitalized.keyword.text = Text.uppercase inst.keyword.text :=
  Text.uppercase_of_lowercase_eq (recasing_capitalized.lowercase_text inst.keyword.chars)

/-! ## Quoted keywords -/

def Problem.capitalized : Problem → Problem
  | argumentMissing keyword => argumentMissing (Text.uppercase keyword)
  | argumentRequiresOne keyword => argumentRequiresOne (Text.uppercase keyword)
  | argumentRequiresTwo keyword => argumentRequiresTwo (Text.uppercase keyword)
  | argumentRequiresAtLeastTwo keyword => argumentRequiresAtLeastTwo (Text.uppercase keyword)
  | unknownInstruction keyword => unknownInstruction (Text.uppercase keyword)
  | onbuildTrigger keyword => onbuildTrigger (Text.uppercase keyword)
  | problem => problem

def Finding.capitalized (f : Finding) : Finding :=
  ⟨f.problem.capitalized, f.span⟩

theorem Problem.code_capitalized (problem : Problem) : problem.capitalized.code = problem.code := by
  cases problem <;> rfl

/-- The wording has keywords in upper case anyway. -/
theorem Problem.message_capitalized (problem : Problem) :
    problem.capitalized.message = problem.message := by
  have hcapitals (text : Text) : capitals (Text.uppercase text) = capitals text :=
    congrArg String.ofList (Text.uppercase_uppercase text)
  cases problem with
  | argumentMissing keyword =>
      exact congrArg (· ++ " requires at least one argument") (hcapitals keyword)
  | argumentRequiresOne keyword =>
      exact congrArg (· ++ " requires exactly one argument") (hcapitals keyword)
  | argumentRequiresTwo keyword =>
      exact congrArg (· ++ " must have two arguments") (hcapitals keyword)
  | argumentRequiresAtLeastTwo keyword =>
      exact congrArg (· ++ " requires at least two arguments") (hcapitals keyword)
  | unknownInstruction keyword => exact congrArg ("Unknown instruction: " ++ ·) (hcapitals keyword)
  | onbuildTrigger keyword =>
      exact congrArg (· ++ " isn't allowed as an ONBUILD trigger") (hcapitals keyword)
  | _ => rfl

theorem Settings.severity?_capitalized (settings : Settings) (problem : Problem) :
    settings.severity? problem.capitalized = settings.severity? problem := by
  cases problem <;> rfl

theorem Diagnostic.ofFinding?_capitalized (text : Text) (settings : Settings) (f : Finding) :
    ofFinding? text settings f.capitalized = ofFinding? text settings f := by
  simp only [ofFinding?, Finding.capitalized, Settings.severity?_capitalized,
    Problem.code_capitalized, Problem.message_capitalized]

namespace Check

/-- The findings, with quoted keywords in upper case. -/
def capitalized (findings : List Finding) : List Finding :=
  findings.map Finding.capitalized

theorem capitalized_append (a b : List Finding) :
    capitalized (a ++ b) = capitalized a ++ capitalized b :=
  List.map_append

theorem capitalized_ite (c : Prop) [Decidable c] (a b : List Finding) :
    capitalized (if c then a else b) = if c then capitalized a else capitalized b :=
  apply_ite capitalized c a b

section Instructions

variable (inst : Instruction)

theorem singleArgument_capitalized :
    capitalized (singleArgument inst.capitalized) = capitalized (singleArgument inst) := by
  simp only [singleArgument, capitalized, List.map_map, Instruction.arguments_capitalized]
  refine List.map_congr_left fun arg _ => ?_
  simp only [Function.comp_apply, Finding.capitalized, Problem.capitalized,
    Instruction.uppercase_capitalized]

theorem pairs_capitalized (k : Keyword) :
    capitalized (pairs k inst.capitalized) = capitalized (pairs k inst) := by
  unfold pairs
  rw [Instruction.properties_capitalized]
  split
  · split
    · simp only [capitalized, List.map_cons, List.map_nil, Finding.capitalized, Problem.capitalized,
        Instruction.uppercase_capitalized]
    · rfl
  · rfl

theorem fromImage_capitalized :
    capitalized (fromImage inst.capitalized) = capitalized (fromImage inst) := by
  unfold fromImage
  rw [Instruction.positional_capitalized, Instruction.keywordSpan_capitalized]
  split
  · simp only [capitalized, List.map_cons, List.map_nil, Finding.capitalized, Problem.capitalized,
      Instruction.uppercase_capitalized]
  · rfl
  · rfl
  · rfl

theorem copy_capitalized : capitalized (copy inst.capitalized) = capitalized (copy inst) := by
  simp only [copy, capitalized_ite, Instruction.positionalRegion_capitalized,
    Instruction.escape_capitalized, Instruction.positional_capitalized,
    Instruction.keywordSpan_capitalized]
  simp only [capitalized, List.map_cons, List.map_nil, Finding.capitalized, Problem.capitalized,
    Instruction.uppercase_capitalized]

theorem healthcheck_capitalized : healthcheck inst.capitalized = healthcheck inst := by
  simp only [healthcheck, healthcheckCommand, Instruction.flags_capitalized,
    Instruction.positional_capitalized, Instruction.keywordSpan_capitalized]

theorem ofKeyword_capitalized (k : Keyword) :
    capitalized (ofKeyword k inst.capitalized) = capitalized (ofKeyword k inst) := by
  have hsingle := singleArgument_capitalized inst
  cases k with
  | ADD | COPY => exact copy_capitalized inst
  | ARG =>
      show capitalized (_ ++ singleArgument inst.capitalized) = capitalized (_ ++ singleArgument inst)
      rw [capitalized_append, capitalized_append, hsingle]
      rfl
  | STOPSIGNAL =>
      show capitalized (_ ++ singleArgument inst.capitalized) = capitalized (_ ++ singleArgument inst)
      rw [capitalized_append, capitalized_append, hsingle]
      rfl
  | ENV | LABEL => exact pairs_capitalized inst _
  | FROM => exact fromImage_capitalized inst
  | HEALTHCHECK => exact congrArg capitalized (healthcheck_capitalized inst)
  | USER => exact hsingle
  | _ => rfl

theorem behindKeyword_capitalized (k : Keyword) :
    capitalized (behindKeyword k inst.capitalized) = capitalized (behindKeyword k inst) := by
  simp only [behindKeyword, capitalized_ite, capitalized_append, Instruction.arguments_capitalized,
    Instruction.keywordSpan_capitalized, Instruction.flags_capitalized,
    Instruction.trigger?_capitalized]
  have hvolume : isArrayVolume inst.capitalized = isArrayVolume inst := rfl
  have hquotes : quotes inst.capitalized = quotes inst := rfl
  rw [hvolume, hquotes]
  congr 1
  · simp only [capitalized, List.map_cons, List.map_nil, Finding.capitalized, Problem.capitalized,
      Instruction.uppercase_capitalized]
  · congr 1
    cases inst.trigger? with
    | none => exact ofKeyword_capitalized inst k
    | some trigger => rfl

end Instructions

/-! ## All but the spelling -/

def uncased (findings : List Finding) : List Finding :=
  (capitalized findings).filter fun f => f.problem.code ≠ .casingInstruction

theorem uncased_append (a b : List Finding) : uncased (a ++ b) = uncased a ++ uncased b := by
  rw [uncased, capitalized_append, List.filter_append]
  rfl

theorem uncased_flatMap {α : Type} (xs : List α) (check : α → List Finding) :
    uncased (xs.flatMap check) = xs.flatMap fun x => uncased (check x) := by
  induction xs with
  | nil => rfl
  | cons x xs ih => rw [List.flatMap_cons, uncased_append, ih, List.flatMap_cons]

theorem uncased_of_capitalized {a b : List Finding} (h : capitalized a = capitalized b) :
    uncased a = uncased b :=
  congrArg (List.filter fun f : Finding => f.problem.code ≠ .casingInstruction) h

theorem uncased_keyword (k : Keyword) (inst : Instruction) :
    uncased (keyword k inst.capitalized) = uncased (keyword k inst) := by
  have hspelled : ∀ inst : Instruction, uncased (keyword k inst) =
      if k = .MAINTAINER then [⟨.deprecatedMaintainer, inst.keywordSpan⟩] else [] := by
    intro inst
    unfold keyword
    rw [uncased_append]
    have hnone : uncased (if inst.keyword.text ≠ Text.uppercase inst.keyword.text then
        [⟨.casingInstruction, inst.keywordSpan⟩] else []) = [] := by
      split <;> rfl
    rw [hnone, List.nil_append]
    split <;> rfl
  rw [hspelled, hspelled, Instruction.keywordSpan_capitalized]

theorem uncased_instruction (inst : Instruction) :
    uncased (instruction inst.capitalized) = uncased (instruction inst) := by
  cases hkind : inst.kind with
  | none =>
      rw [instruction_of_unknown hkind,
        instruction_of_unknown ((Instruction.kind_capitalized inst).trans hkind)]
      refine uncased_of_capitalized ?_
      simp only [capitalized, List.map_cons, List.map_nil, Finding.capitalized, Problem.capitalized,
        Instruction.uppercase_capitalized, Instruction.keywordSpan_capitalized]
  | some k =>
      rw [instruction_of_kind hkind,
        instruction_of_kind ((Instruction.kind_capitalized inst).trans hkind), uncased_append,
        uncased_append, uncased_keyword, uncased_of_capitalized (behindKeyword_capitalized inst k)]

theorem uncased_withEmptyLines (inst : Instruction) :
    uncased (withEmptyLines inst.capitalized) = uncased (withEmptyLines inst) := by
  unfold withEmptyLines
  rw [uncased_append, uncased_append, uncased_instruction, Instruction.emptyLines_capitalized]

theorem sourceImage_capitalized (insts : List Instruction) :
    sourceImage (insts.map Instruction.capitalized) = sourceImage insts := by
  have harg : (fun inst : Instruction => !inst.isKind .ARG) ∘ Instruction.capitalized =
      fun inst => !inst.isKind .ARG :=
    funext fun inst => congrArg not (inst.isKind_capitalized .ARG)
  unfold sourceImage
  rw [List.find?_map, harg]
  cases insts.find? fun inst => !inst.isKind .ARG with
  | none => rfl
  | some inst =>
      simp only [Option.map_some, Instruction.isKind_capitalized, Instruction.keywordSpan_capitalized]

theorem overridden_capitalized (k : Keyword) (sites : List Site) :
    overridden k (sites.map Site.capitalized) = overridden k sites := by
  induction sites with
  | nil => rfl
  | cons site rest ih =>
      have hany : (rest.map Site.capitalized).any (fun s =>
          s.instruction.isKind k && s.scope == site.scope) =
            rest.any fun s => s.instruction.isKind k && s.scope == site.scope := by
        rw [List.any_map]
        simp only [Function.comp_def, Site.instruction_capitalized, Instruction.isKind_capitalized,
          Site.scope_capitalized]
      rw [List.map_cons, overridden, overridden, ih, Site.instruction_capitalized,
        Instruction.isKind_capitalized, Instruction.keywordSpan_capitalized, Site.scope_capitalized,
        hany]

/-- Up to the spelling of keywords, what is found in a file depends on its keywords in upper case. -/
theorem uncased_file (f : File) (scopes : ScopeTable) :
    uncased (file f scopes) =
      uncased (file { f with instructions := f.instructions.map Instruction.capitalized }
        scopes.capitalized) := by
  simp only [file, ScopeTable.capitalized, uncased_append, uncased_flatMap, sourceImage_capitalized,
    overridden_capitalized, List.flatMap_map, uncased_withEmptyLines]

/-! ## Reports -/

/-- The reports that are not about the spelling of keywords are those of all other findings. -/
theorem diagnostics_uncased (text : Text) (f : File) (scopes : ScopeTable) (settings : Settings) :
    (diagnostics text f scopes settings).filter (fun d => d.code ≠ .casingInstruction) =
      ((uncased (file f scopes)).filterMap (Diagnostic.ofFinding? text settings)).mergeSort
        Diagnostic.le := by
  have hsame : ∀ a b a' b' : Diagnostic,
      Option.guard (fun d : Diagnostic => d.code ≠ .casingInstruction) a = some a' →
        Option.guard (fun d : Diagnostic => d.code ≠ .casingInstruction) b = some b' →
          a'.le b' = a.le b := by
    intro a b a' b' ha hb
    rw [(Option.guard_eq_some_iff.mp ha).1, (Option.guard_eq_some_iff.mp hb).1]
  have hreports : ((file f scopes).filterMap (Diagnostic.ofFinding? text settings)).filterMap
        (Option.guard fun d : Diagnostic => d.code ≠ .casingInstruction) =
      (uncased (file f scopes)).filterMap (Diagnostic.ofFinding? text settings) := by
    rw [uncased, capitalized, List.filterMap_filter, List.filterMap_map, List.filterMap_filterMap]
    refine List.filterMap_congr fun finding _ => ?_
    have hcode : finding.capitalized.problem.code = finding.problem.code :=
      finding.problem.code_capitalized
    rw [Function.comp_apply, Diagnostic.ofFinding?_capitalized, hcode]
    cases hreport : Diagnostic.ofFinding? text settings finding with
    | none => simp
    | some d =>
        obtain ⟨severity, -, rfl⟩ := Option.map_eq_some_iff.mp hreport
        simp [Option.guard]
  rw [← List.filterMap_eq_filter, diagnostics,
    filterMap_mergeSort Diagnostic.le_trans Diagnostic.le_total hsame, hreports]

end Check

end Dockerfile
