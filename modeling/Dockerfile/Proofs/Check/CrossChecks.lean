import Dockerfile.Proofs.Check.Repetition
import Dockerfile.Proofs.Text.Casing

/-!
# Reports about several instructions

If the settings ignore nothing, the three checks that compare instructions report exactly what they
look for, once, at its place (`analyze_crossChecked`). The checks of names and of overridden
instructions may gather what they compare in hash maps: whatever the order of the groups, the list of
reports is the same.
-/

namespace Dockerfile

/-- Whether the settings ignore no finding. -/
def Settings.Complete (s : Settings) : Prop :=
  ∀ problem, s.severity? problem ≠ none

theorem Settings.complete_default : ({} : Settings).Complete := by
  intro problem
  cases problem with
  | multipleInstructions k => cases k <;> decide
  | _ => simp [severity?, level?, Level.severity?]

/-- How many reports with a code stand at a place. -/
def Analysis.reportsAt (a : Analysis) (code : Code) (span : Span) : Nat :=
  a.diagnostics.countP fun d => d.code = code ∧ d.span = span

/-- The kinds of which only the last instruction of a stage has an effect. -/
def Keyword.overriding : List Keyword :=
  [.CMD, .ENTRYPOINT, .HEALTHCHECK]

namespace Check

/-! ## Groups in any order -/

/-- Stages gathered under their names, in lower case, and the instructions of each kind under their
scopes. The groups come in any order. -/
structure Groups (scopes : ScopeTable) where
  names : List (Text × List Excerpt)
  sites : Keyword → List (Scope × List Site)
  names_gathered : Gathers (fun name => Text.lowercase name.text) scopes.names names
  sites_gathered : ∀ k, Gathers Site.scope
    (scopes.sites.filter fun site => site.instruction.isKind k) (sites k)

instance (scopes : ScopeTable) : Inhabited (Groups scopes) :=
  ⟨⟨_, fun _ => _, gathers_gather _ _, fun _ => gathers_gather _ _⟩⟩

def sharedNames (groups : List (Text × List Excerpt)) : List Finding :=
  groups.flatMap fun g =>
    if g.2.length < 2 then [] else g.2.map fun name => ⟨.duplicateStageName g.1, name.span⟩

/-- The findings about the overridden instructions of a kind, one group after the other. -/
def allButLast (k : Keyword) (groups : List (Scope × List Site)) : List Finding :=
  groups.flatMap fun g =>
    g.2.dropLast.map fun site => ⟨.multipleInstructions k, site.instruction.keywordSpan⟩

/-- All findings about a file, where names and overridden instructions are looked at in groups. -/
def fileInGroups (file : File) {scopes : ScopeTable} (groups : Groups scopes) : List Finding :=
  file.directives.flatMap directive ++ sourceImage file.instructions ++
    file.instructions.flatMap withEmptyLines ++ sharedNames groups.names ++
    allButLast .CMD (groups.sites .CMD) ++ allButLast .ENTRYPOINT (groups.sites .ENTRYPOINT) ++
    allButLast .HEALTHCHECK (groups.sites .HEALTHCHECK)

theorem repeated_filter (scopes : ScopeTable) (key : Text) :
    ((repeated scopes.stages).filter fun name => Text.lowercase name.text = key) =
      if (scopes.names.filter fun name => Text.lowercase name.text = key).length < 2 then []
      else scopes.names.filter fun name => Text.lowercase name.text = key := by
  have hsame : ∀ name ∈ scopes.names,
      (decide (Text.lowercase name.text = key) &&
          decide (1 < scopes.stages.countP (Stage.isNamed name.text))) =
        (decide (Text.lowercase name.text = key) &&
          decide (1 < (scopes.names.filter fun name => Text.lowercase name.text = key).length)) := by
    intro name _
    by_cases hkey : Text.lowercase name.text = key
    · rw [countP_isNamed, hkey, List.countP_eq_length_filter]
      rfl
    · rw [decide_eq_false hkey, Bool.false_and, Bool.false_and]
  have hboth := List.filter_congr hsame
  rw [← List.filter_filter] at hboth
  refine Eq.trans hboth ?_
  split
  · rename_i hfew
    exact List.filter_eq_nil_iff.mpr fun name _ => by simp; omega
  · rename_i hmany
    exact List.filter_congr fun name _ => by simp; omega

theorem sharedNames_perm {scopes : ScopeTable} (groups : Groups scopes) :
    (sharedNames groups.names).Perm
      ((repeated scopes.stages).map fun name =>
        ⟨.duplicateStageName (Text.lowercase name.text), name.span⟩) := by
  have hkept : (repeated scopes.stages).Sublist scopes.names := List.filter_sublist
  refine groups.names_gathered.flatMap_perm hkept fun key => ?_
  rw [repeated_filter]
  by_cases hfew : (scopes.names.filter fun name => Text.lowercase name.text = key).length < 2
  · rw [if_pos hfew, if_pos hfew, List.map_nil]
  · rw [if_neg hfew, if_neg hfew]
    refine List.map_congr_left fun name hname => ?_
    rw [of_decide_eq_true (List.mem_filter.mp hname).2]

theorem allButLast_perm {scopes : ScopeTable} (groups : Groups scopes) (k : Keyword) :
    (allButLast k (groups.sites k)).Perm (overridden k scopes.sites) := by
  rw [overridden_eq]
  refine (groups.sites_gathered k).flatMap_perm (superseded_sublist k _) fun scope => ?_
  rw [superseded_filter]

end Check

/-! ## Reports -/

namespace Diagnostic

theorem eq_span_of_le {a b : Diagnostic} (hab : a.le b) (hba : b.le a) : a.span = b.span := by
  rw [le_iff] at hab hba
  obtain ⟨⟨astart, astop⟩, _⟩ := a
  obtain ⟨⟨bstart, bstop⟩, _⟩ := b
  simp only [Span.mk.injEq] at hab hba ⊢
  omega

variable {text : Text} {settings : Settings}

/-- A name is reported in lower case, however it is spelled. -/
theorem ofFinding?_duplicate (name : Text) (span : Span) :
    ofFinding? text settings ⟨.duplicateStageName (Text.lowercase name), span⟩ =
      ofFinding? text settings ⟨.duplicateStageName name, span⟩ := by
  have hmessage : (Problem.duplicateStageName (Text.lowercase name)).message =
      (Problem.duplicateStageName name).message :=
    congrArg (fun own => "duplicate name " ++ String.ofList own) (Text.lowercase_lowercase name)
  unfold ofFinding?
  rw [hmessage]
  rfl

theorem nodup_reports {findings : List Finding} (h : ∀ f ∈ findings, Text.widen text f.span = f.span)
    (hnodup : (findings.map Finding.span).Nodup) :
    ((findings.filterMap (ofFinding? text settings)).map span).Nodup := by
  refine hnodup.sublist ?_
  clear hnodup
  induction findings with
  | nil => exact .slnil
  | cons f findings ih =>
      have ih := ih fun g hg => h g (List.mem_cons_of_mem _ hg)
      cases hreport : ofFinding? text settings f with
      | none =>
          rw [List.filterMap_cons_none hreport]
          exact ih.cons _
      | some d =>
          rw [List.filterMap_cons_some hreport, List.map_cons, List.map_cons,
            (exists_of_ofFinding? hreport).1, h f List.mem_cons_self]
          exact ih.cons_cons _

/-- Each finding is reported if the settings ignore nothing. -/
theorem countP_reports (h : settings.Complete) (findings : List Finding) (p : Code → Span → Bool) :
    (findings.filterMap (ofFinding? text settings)).countP (fun d => p d.code d.span) =
      findings.countP fun f => p f.problem.code (Text.widen text f.span) := by
  rw [List.countP_filterMap]
  refine List.countP_congr fun f _ => ?_
  obtain ⟨severity, hseverity⟩ := Option.ne_none_iff_exists'.mp (h f.problem)
  simp [ofFinding?, hseverity]

end Diagnostic

namespace File

variable (text : Text)

theorem sites_keywordSpans_nodup :
    ((ScopeTable.ofFile (parse text)).sites.map fun site => site.instruction.keywordSpan).Nodup := by
  have hspans := nodup_spans (keywordSpans_increasing text)
  rwa [← Site.map_instruction 0 .global (parse text).instructions, List.map_map] at hspans

theorem widen_overridden {text : Text} {k : Keyword} {f : Finding}
    (h : f ∈ Check.overridden k (ScopeTable.ofFile (parse text)).sites) :
    Text.widen text f.span = f.span := by
  rw [Check.overridden_eq] at h
  obtain ⟨site, hsite, rfl⟩ := List.mem_map.mp h
  have hinst := Site.instruction_mem (Check.superseded_isKind hsite).1
  exact Text.widen_of_wellPlaced (instruction_within hinst).keyword.span (keywordSpan_isEmpty hinst)

theorem widen_duplicateStages {text : Text} {f : Finding}
    (h : f ∈ Check.duplicateStages (ScopeTable.ofFile (parse text)).stages) :
    Text.widen text f.span = f.span := by
  rw [Check.duplicateStages_eq] at h
  obtain ⟨name, hname, rfl⟩ := List.mem_map.mp h
  obtain ⟨hwithin, hne⟩ := name_within (List.mem_filter.mp hname).1
  exact Text.widen_of_wellPlaced hwithin.span hne

end File

namespace Check

/-- The order of the groups has no part in the reports. -/
theorem diagnostics_eq_inGroups (text : Text) (settings : Settings)
    (groups : Groups (ScopeTable.ofFile (File.parse text))) :
    diagnostics text (File.parse text) (ScopeTable.ofFile (File.parse text)) settings =
      ((fileInGroups (File.parse text) groups).filterMap
        (Diagnostic.ofFinding? text settings)).mergeSort Diagnostic.le := by
  -- The findings of each check have places of their own, so sorting leaves them no choice of order.
  have hduplicates : ∀ span,
      (((sharedNames groups.names).filterMap (Diagnostic.ofFinding? text settings)).filter fun d =>
          d.span = span) =
        ((duplicateStages (ScopeTable.ofFile (File.parse text)).stages).filterMap
          (Diagnostic.ofFinding? text settings)).filter fun d => d.span = span := by
    refine filter_key_eq_of_perm ?_ (Diagnostic.nodup_reports
      (fun f hf => File.widen_duplicateStages hf) ?_)
    · refine ((sharedNames_perm groups).filterMap _).trans (.of_eq ?_)
      rw [duplicateStages_eq, List.filterMap_map, List.filterMap_map]
      congr 1
      funext name
      exact Diagnostic.ofFinding?_duplicate name.text name.span
    · rw [duplicateStages_eq, List.map_map]
      exact (nodup_spans (File.names_increasing text)).sublist (List.filter_sublist.map Excerpt.span)
  have hoverridden : ∀ k span,
      (((allButLast k (groups.sites k)).filterMap (Diagnostic.ofFinding? text settings)).filter fun d =>
          d.span = span) =
        ((overridden k (ScopeTable.ofFile (File.parse text)).sites).filterMap
          (Diagnostic.ofFinding? text settings)).filter fun d => d.span = span := by
    intro k
    refine filter_key_eq_of_perm ((allButLast_perm groups k).filterMap _) (Diagnostic.nodup_reports
      (fun f hf => File.widen_overridden hf) ?_)
    rw [overridden_eq, List.map_map]
    exact (File.sites_keywordSpans_nodup text).sublist
      (((superseded_sublist k _).trans List.filter_sublist).map _)
  refine mergeSort_eq_of_ties Diagnostic.le_trans Diagnostic.le_total
    (fun a b => Diagnostic.eq_span_of_le) fun span => ?_
  simp only [file, fileInGroups, List.filterMap_append, List.filter_append, hduplicates, hoverridden]

end Check

/-! ## Reports at a place -/

/-- How many overridden instructions of a kind have their keyword at a place. -/
def Check.overriddenAt (sites : List Site) (span : Span) (k : Keyword) : Nat :=
  (overridden k sites).countP fun f => f.span = span

/-- What happens once for one of the kinds, and not for the others, happens once. -/
theorem OneIf.sum_overriding {p : Prop} {n : Keyword → Nat} {k : Keyword}
    (hk : k ∈ Keyword.overriding) (h : ∀ k', OneIf (k' = k ∧ p) (n k')) :
    OneIf p (n .CMD + n .ENTRYPOINT + n .HEALTHCHECK) := by
  have hother : ∀ k', k' ≠ k → n k' = 0 := fun k' hne => (h k').2 fun hboth => hne hboth.1
  have hsum : n .CMD + n .ENTRYPOINT + n .HEALTHCHECK = n k := by
    simp only [Keyword.overriding, List.mem_cons, List.not_mem_nil, or_false] at hk
    rcases hk with rfl | rfl | rfl <;> simp [hother]
  rw [hsum]
  exact (h k).of_iff (and_iff_right rfl)

section Places

variable {text : Text} {settings : Settings} (h : settings.Complete) (span : Span)
include h

theorem Analysis.reportsAt_eq (code : Code) :
    (analyze text settings).reportsAt code span =
      (analyze text settings).findings.countP fun f =>
        f.problem.code = code ∧ Text.widen text f.span = span := by
  unfold reportsAt
  rw [(diagnostics_perm text settings).countP_eq]
  exact Diagnostic.countP_reports h _ fun c s => c = code ∧ s = span

theorem Analysis.reportsAt_duplicateStageName :
    (analyze text settings).reportsAt .duplicateStageName span =
      (Check.duplicateStages (ScopeTable.ofFile (File.parse text)).stages).countP fun f =>
        f.span = span := by
  rw [reportsAt_eq h, findings, Check.countP_file_duplicateStages fun f hf => by simp_all]
  refine List.countP_congr fun f hf => ?_
  rw [File.widen_duplicateStages hf, Check.duplicateStages_code f hf]
  simp

theorem Analysis.reportsAt_multipleInstructions :
    (analyze text settings).reportsAt .multipleInstructions span =
      Check.overriddenAt (ScopeTable.ofFile (File.parse text)).sites span .CMD +
        Check.overriddenAt (ScopeTable.ofFile (File.parse text)).sites span .ENTRYPOINT +
          Check.overriddenAt (ScopeTable.ofFile (File.parse text)).sites span .HEALTHCHECK := by
  rw [reportsAt_eq h, findings, Check.countP_file_overridden fun f hf => by simp_all]
  have hcongr : ∀ k, (Check.overridden k (ScopeTable.ofFile (File.parse text)).sites).countP (fun f =>
        f.problem.code = .multipleInstructions ∧ Text.widen text f.span = span) =
      Check.overriddenAt (ScopeTable.ofFile (File.parse text)).sites span k := by
    refine fun k => List.countP_congr fun f hf => ?_
    rw [File.widen_overridden hf, Check.overridden_code f hf]
    simp
  exact congrArg₂ _ (congrArg₂ _ (hcongr .CMD) (hcongr .ENTRYPOINT)) (hcongr .HEALTHCHECK)

end Places

/-- The checks that compare instructions have reported what they look for: once at its place, and
nothing else. -/
structure Analysis.CrossChecked (a : Analysis) : Prop where
  sourceImage : OneIf (¬Check.BeginsWithFrom a.file.instructions)
    (a.diagnostics.countP fun d => d.code = .noSourceImage)
  /-- The name of a stage is reported if another stage has it, up to case. -/
  names : ∀ (i : Nat) (stage : Stage) (name : Excerpt), a.scopes.stages[i]? = some stage →
    stage.name = some name →
    OneIf (∃ j other, j ≠ i ∧ a.scopes.stages[j]? = some other ∧ Stage.isNamed name.text other = true)
      (a.reportsAt .duplicateStageName name.span)
  names_only : ∀ span, (∀ name ∈ a.scopes.names, name.span ≠ span) →
    a.reportsAt .duplicateStageName span = 0
  /-- An instruction is reported if a later one of its kind is in the same scope. -/
  overridden : ∀ k ∈ Keyword.overriding, ∀ (i : Nat) (inst : Instruction),
    a.file.instructions[i]? = some inst → inst.isKind k = true →
      OneIf (∃ j other, i < j ∧ a.file.instructions[j]? = some other ∧ other.isKind k = true ∧
          a.scopes.scopeOf j = a.scopes.scopeOf i)
        (a.reportsAt .multipleInstructions inst.keywordSpan)
  overridden_only : ∀ span, (∀ k ∈ Keyword.overriding, ∀ inst ∈ a.file.instructions,
    inst.isKind k = true → inst.keywordSpan ≠ span) → a.reportsAt .multipleInstructions span = 0

/-- With settings that ignore nothing, a missing `FROM` is reported once, and so are every stage that
shares its name and every instruction that a later one overrides, each at its place. The names and
the overridden instructions may have been gathered in hash maps: all orders of the groups lead to the
same list of reports. -/
theorem analyze_crossChecked (text : Text) (settings : Settings) (h : settings.Complete) :
    (analyze text settings).CrossChecked ∧
      ∀ groups : Check.Groups (analyze text settings).scopes,
        (analyze text settings).diagnostics =
          ((Check.fileInGroups (analyze text settings).file groups).filterMap
            (Diagnostic.ofFinding? text settings)).mergeSort Diagnostic.le := by
  refine ⟨⟨?_, ?_, ?_, ?_, ?_⟩, Check.diagnostics_eq_inGroups text settings⟩
  · rw [(Analysis.diagnostics_perm text settings).countP_eq,
      Diagnostic.countP_reports h _ fun c _ => c = .noSourceImage, Analysis.findings,
      Check.countP_file_sourceImage fun f hf => of_decide_eq_true hf]
    have hall : ∀ f ∈ Check.sourceImage (analyze text settings).file.instructions,
        decide (f.problem.code = .noSourceImage) = true := fun f hf =>
      decide_eq_true (Check.sourceImage_code f hf)
    rw [List.countP_eq_length.mpr hall]
    exact Check.sourceImage_oneIf _
  · intro i stage name hi hname
    rw [Analysis.reportsAt_duplicateStageName h]
    exact Check.duplicateStages_oneIf (nodup_spans (File.names_increasing text)) hi hname
  · intro span hspan
    rw [Analysis.reportsAt_duplicateStageName h, Check.duplicateStages_eq, List.countP_map,
      List.countP_eq_zero]
    intro name hname heq
    exact hspan name (List.mem_filter.mp hname).1 (of_decide_eq_true heq)
  · intro k hk i inst hi hkind
    have hone := Check.overridden_oneIf (nodup_spans (File.keywordSpans_increasing text)) hi hkind
    rw [Analysis.reportsAt_multipleInstructions h]
    exact OneIf.sum_overriding hk hone
  · intro span hspan
    have hnone : ∀ k ∈ Keyword.overriding,
        Check.overriddenAt (ScopeTable.ofFile (File.parse text)).sites span k = 0 := by
      intro k hk
      rw [Check.overriddenAt, Check.overridden_eq, List.countP_map, List.countP_eq_zero]
      intro site hsite heq
      obtain ⟨hmem, hkind⟩ := Check.superseded_isKind hsite
      exact hspan k hk _ (Site.instruction_mem hmem) hkind (of_decide_eq_true heq)
    rw [Analysis.reportsAt_multipleInstructions h, hnone .CMD (by decide),
      hnone .ENTRYPOINT (by decide), hnone .HEALTHCHECK (by decide)]

/-- By default nothing is ignored: of two stages `x` and `X` the first is reported at its name, and of
the two `CMD`s of one stage the first. -/
theorem crossChecked_stages :
    let a := analyze "FROM a AS x\nCMD a\nCMD b\nFROM b AS X".toList {}
    ({} : Settings).Complete ∧ a.reportsAt .duplicateStageName ⟨10, 11⟩ = 1 ∧
      a.reportsAt .multipleInstructions ⟨12, 15⟩ = 1 := by
  intro a
  have hchecked := (analyze_crossChecked "FROM a AS x\nCMD a\nCMD b\nFROM b AS X".toList {}
    Settings.complete_default).1
  refine ⟨Settings.complete_default, ?_, ?_⟩
  · obtain ⟨first, hfirst⟩ : ∃ stage, a.scopes.stages[0]? = some stage :=
      Option.isSome_iff_exists.mp (by decide +kernel)
    obtain ⟨second, hsecond⟩ : ∃ stage, a.scopes.stages[1]? = some stage :=
      Option.isSome_iff_exists.mp (by decide +kernel)
    have hname : first.name = some ⟨[⟨'x', 10⟩], 11⟩ :=
      (by decide +kernel : ∀ stage ∈ a.scopes.stages[0]?, stage.name = some ⟨[⟨'x', 10⟩], 11⟩) first
        hfirst
    have hsame : second.isNamed ['x'] = true :=
      (by decide +kernel : ∀ stage ∈ a.scopes.stages[1]?, stage.isNamed ['x'] = true) second hsecond
    exact (hchecked.names 0 first _ hfirst hname).1 ⟨1, second, by decide, hsecond, hsame⟩
  · obtain ⟨first, hfirst⟩ : ∃ inst, a.file.instructions[1]? = some inst :=
      Option.isSome_iff_exists.mp (by decide +kernel)
    obtain ⟨second, hsecond⟩ : ∃ inst, a.file.instructions[2]? = some inst :=
      Option.isSome_iff_exists.mp (by decide +kernel)
    obtain ⟨hkind, hspan⟩ :=
      (by decide +kernel : ∀ inst ∈ a.file.instructions[1]?, inst.isKind .CMD = true ∧
        inst.keywordSpan = ⟨12, 15⟩) first hfirst
    have hkind' : second.isKind .CMD = true :=
      (by decide +kernel : ∀ inst ∈ a.file.instructions[2]?, inst.isKind .CMD = true) second hsecond
    rw [← hspan]
    exact (hchecked.overridden .CMD (by decide) 1 first hfirst hkind).1
      ⟨2, second, by decide, hsecond, hkind', by decide +kernel⟩

end Dockerfile
