import Dockerfile.Proofs.Check.Gathering
import Dockerfile.Proofs.Check.Places
import Dockerfile.Proofs.Check.Subjects
import Dockerfile.Proofs.Scope.StageTables

/-!
# Instructions that do not go together

Three checks compare instructions: that a file begins with a `FROM`, that stages have names of their
own, and that one instruction of a stage does not override another. Each reports once where its
condition holds and nowhere else (`analyze_crossChecked`). The last two gather stages and
instructions under keys; the reports do not depend on the order in which the groups are looked at.
-/

namespace Dockerfile

/-! ## Counting -/

/-- There is exactly one of something if a condition holds, and none otherwise. -/
def OneIf (p : Prop) (n : Nat) : Prop :=
  (p → n = 1) ∧ (¬p → n = 0)

theorem OneIf.of_iff {p q : Prop} {n : Nat} (h : OneIf p n) (hpq : p ↔ q) : OneIf q n :=
  ⟨fun hq => h.1 (hpq.mpr hq), fun hq => h.2 fun hp => hq (hpq.mp hp)⟩

/-- If no two things have one key, at most one of them has a given key. -/
theorem oneIf_countP {α β : Type} [DecidableEq β] {key : α → β} {xs : List α}
    (hnodup : (xs.map key).Nodup) (k : β) :
    OneIf (∃ x ∈ xs, key x = k) (xs.countP fun x => key x = k) := by
  have hcount : xs.countP (fun x => key x = k) = (xs.map key).count k := by
    rw [List.count_eq_countP, List.countP_map]
    rfl
  rw [hcount]
  refine ⟨fun ⟨x, hx, hkey⟩ => ?_, fun hnone => ?_⟩
  · exact List.count_eq_one_of_mem hnodup (hkey ▸ List.mem_map_of_mem hx)
  · refine List.count_eq_zero.mpr fun hk => hnone ?_
    obtain ⟨x, hx, hkey⟩ := List.mem_map.mp hk
    exact ⟨x, hx, hkey⟩

/-- Of the things that satisfy a condition there are two if there is one at another place. -/
theorem one_lt_countP_iff {α : Type} {p : α → Bool} {xs : List α} {i : Nat} {x : α}
    (hi : xs[i]? = some x) (hp : p x = true) :
    1 < xs.countP p ↔ ∃ j y, j ≠ i ∧ xs[j]? = some y ∧ p y = true := by
  induction xs generalizing i with
  | nil => cases hi
  | cons a xs ih =>
      cases i with
      | zero =>
          obtain rfl : a = x := by simpa using hi
          rw [List.countP_cons_of_pos hp, Nat.lt_add_left_iff_pos, List.countP_pos_iff]
          constructor
          · rintro ⟨y, hy, hpy⟩
            obtain ⟨j, hj⟩ := List.mem_iff_getElem?.mp hy
            exact ⟨j + 1, y, Nat.succ_ne_zero j, by simpa using hj, hpy⟩
          · rintro ⟨j, y, hj, hy, hpy⟩
            obtain ⟨j, rfl⟩ := Nat.exists_eq_succ_of_ne_zero hj
            exact ⟨y, List.mem_iff_getElem?.mpr ⟨j, by simpa using hy⟩, hpy⟩
      | succ i =>
          have hi : xs[i]? = some x := by simpa using hi
          by_cases ha : p a = true
          · have hpos : 0 < xs.countP p :=
              List.countP_pos_iff.mpr ⟨x, List.mem_of_getElem? hi, hp⟩
            rw [List.countP_cons_of_pos ha]
            exact ⟨fun _ => ⟨0, a, (Nat.succ_ne_zero i).symm, rfl, ha⟩, fun _ => by omega⟩
          · rw [List.countP_cons_of_neg ha, ih hi]
            constructor
            · rintro ⟨j, y, hj, hy, hpy⟩
              exact ⟨j + 1, y, by omega, by simpa using hy, hpy⟩
            · rintro ⟨j, y, hj, hy, hpy⟩
              cases j with
              | zero =>
                  obtain rfl : a = y := by simpa using hy
                  exact absurd hpy ha
              | succ j => exact ⟨j, y, by omega, by simpa using hy, hpy⟩

/-! ## Places of keywords and of names -/

/-- An excerpt with characters takes bytes of the text. -/
theorem Excerpt.Within.span_isEmpty {text : Text} {e : Excerpt} (h : e.Within text)
    (hne : e.chars ≠ []) : e.span.isEmpty = false := by
  obtain ⟨p, hp, hstart⟩ := Placed.exists_reach hne
  have hspan := span_eq_reach hne
  rcases e.stop_eq with ⟨hnil, -⟩ | ⟨q, hq, hstop⟩
  · exact absurd hnil hne
  have hpq : p.offset ≤ q.offset := by
    rw [← hstart, ← hspan]
    obtain ⟨first, rest, hchars⟩ := List.exists_cons_of_ne_nil hne
    have hordered := (Text.pairwise_place 0 text).sublist h.chars
    rw [hchars, List.pairwise_cons] at hordered
    have hfirst : e.span.start = first.offset := by
      rw [Excerpt.span, Excerpt.start, hchars, Placed.startOr_cons]
    rw [hfirst]
    rcases List.mem_cons.mp (hchars ▸ hq) with rfl | hq
    · exact Nat.le_refl _
    · have := hordered.1 q hq
      have := first.offset_lt_stop
      omega
  have hlt := q.offset_lt_stop
  have hle : e.stop ≤ e.span.stop := Nat.le_max_left _ _
  have hne : e.span.start ≠ e.span.stop := by
    rw [hspan, hstart, ← hspan]
    omega
  simpa [Span.isEmpty] using hne

namespace Instruction

variable {inst : Instruction}

theorem stageName?_chars {name : Excerpt} (h : inst.stageName? = some name) :
    name.chars ≠ [] ∧ name.chars ⊆ inst.chars := by
  have hmem : name.chars ∈ inst.stageMentions := by
    refine List.mem_map_of_mem (List.mem_append_left _ ?_)
    rw [h]
    exact List.mem_singleton_self _
  obtain ⟨hne, hwithin⟩ := infix_of_mem_stageMentions hmem
  exact ⟨hne, fun p hp => List.mem_append_right _ (hwithin.mem hp)⟩

end Instruction

def ScopeTable.names (table : ScopeTable) : List Excerpt :=
  table.stages.filterMap Stage.name

theorem ScopeTable.names_ofInstructions (insts : List Instruction) :
    (ofInstructions insts).names = insts.filterMap Instruction.stageName? := by
  have hsites := Site.map_instruction 0 .global insts
  have hnames : (ofInstructions insts).names =
      ((Stage.ofSites (Site.ofInstructions 0 .global insts)).map
        fun stage => (stage.index, stage.name)).filterMap Prod.snd := by
    rw [List.filterMap_map]
    rfl
  rw [hnames, Stage.ofSites_eq, List.filterMap_map, List.filterMap_filter]
  conv_rhs => rw [← hsites, List.filterMap_map]
  congr 1
  funext site
  by_cases hfrom : site.isFrom = true
  · simp only [hfrom, if_true, Function.comp_apply]
  · simp only [hfrom, Bool.false_eq_true, if_false, Function.comp_apply]
    exact (if_neg hfrom).symm

namespace File

variable (text : Text)

theorem keywordSpan_isEmpty {text : Text} {inst : Instruction}
    (h : inst ∈ (parse text).instructions) : inst.keywordSpan.isEmpty = false := by
  refine (instruction_within h).keyword.span_isEmpty fun hnil => ?_
  have hnamed := isNamed_of_mem h
  simp [Instruction.isNamed, Excerpt.isEmpty, hnil] at hnamed

theorem keywordSpans_increasing :
    (parse text).instructions.Pairwise fun a b => a.keywordSpan.start < b.keywordSpan.start := by
  refine (instructions_separated text).imp_of_mem ?_
  intro a b ha hb hab
  obtain ⟨p, hp, hstart⟩ := Instruction.keywordSpan_start (isNamed_of_mem ha)
  obtain ⟨q, hq, hstart'⟩ := Instruction.keywordSpan_start (isNamed_of_mem hb)
  have := hab p (List.mem_append_left _ hp) q (List.mem_append_left _ hq)
  have := p.offset_lt_stop
  omega

theorem names_eq :
    (ScopeTable.ofFile (parse text)).names =
      (parse text).instructions.filterMap Instruction.stageName? :=
  ScopeTable.names_ofInstructions _

theorem name_within {text : Text} {name : Excerpt}
    (h : name ∈ (ScopeTable.ofFile (parse text)).names) :
    name.Within text ∧ name.span.isEmpty = false := by
  rw [names_eq] at h
  obtain ⟨inst, hinst, hname⟩ := List.mem_filterMap.mp h
  have hwithin := Check.stageName_within (instruction_within hinst) hname
  exact ⟨hwithin, hwithin.span_isEmpty (Instruction.stageName?_chars hname).1⟩

theorem names_increasing :
    (ScopeTable.ofFile (parse text)).names.Pairwise fun a b => a.span.start < b.span.start := by
  rw [names_eq, List.pairwise_filterMap]
  refine (instructions_separated text).imp ?_
  intro a b hab name hname name' hname'
  obtain ⟨hne, hsub⟩ := Instruction.stageName?_chars hname
  obtain ⟨hne', hsub'⟩ := Instruction.stageName?_chars hname'
  obtain ⟨p, hp, hstart⟩ := Placed.exists_reach hne
  obtain ⟨q, hq, hstart'⟩ := Placed.exists_reach hne'
  rw [Excerpt.span_eq_reach hne, Excerpt.span_eq_reach hne', hstart, hstart']
  have := hab p (hsub hp) q (hsub' hq)
  have := p.offset_lt_stop
  omega

end File

/-- Things that start one behind the other stand at different places. -/
theorem nodup_spans {α : Type} {span : α → Span} {xs : List α}
    (h : xs.Pairwise fun a b => (span a).start < (span b).start) : (xs.map span).Nodup := by
  refine List.pairwise_map.mpr (h.imp ?_)
  intro a b hab heq
  rw [heq] at hab
  exact Nat.lt_irrefl _ hab

namespace Check

/-! ## The first instruction -/

def BeginsWithFrom (insts : List Instruction) : Prop :=
  ∃ front inst rest, insts = front ++ inst :: rest ∧ (∀ i ∈ front, i.isKind .ARG = true) ∧
    inst.isKind .FROM = true

theorem sourceImage_oneIf (insts : List Instruction) :
    OneIf (¬BeginsWithFrom insts) (sourceImage insts).length := by
  have hfound : BeginsWithFrom insts ↔
      ∃ inst, insts.find? (fun inst => !inst.isKind .ARG) = some inst ∧ inst.isKind .FROM = true := by
    constructor
    · rintro ⟨front, inst, rest, heq, hfront, hfrom⟩
      refine ⟨inst, List.find?_eq_some_iff_append.mpr ⟨?_, front, rest, heq, ?_⟩, hfrom⟩
      · rw [Instruction.isKind, eq_of_beq hfrom]
        rfl
      · intro i hi
        rw [hfront i hi]
        rfl
    · rintro ⟨inst, hfind, hfrom⟩
      obtain ⟨-, front, rest, heq, hfront⟩ := List.find?_eq_some_iff_append.mp hfind
      exact ⟨front, inst, rest, heq, fun i hi => by simpa using hfront i hi, hfrom⟩
  rw [hfound]
  unfold sourceImage
  cases hfind : insts.find? fun inst => !inst.isKind .ARG with
  | none =>
      refine ⟨fun _ => rfl, fun hsome => absurd ?_ hsome⟩
      rintro ⟨inst, hinst, -⟩
      cases hinst
  | some inst =>
      by_cases hfrom : inst.isKind .FROM = true
      · refine ⟨fun hnone => absurd ⟨inst, rfl, hfrom⟩ hnone, fun _ => ?_⟩
        simp [hfrom]
      · refine ⟨fun _ => by simp [hfrom], fun hsome => absurd ?_ hsome⟩
        rintro ⟨inst', hinst, hfrom'⟩
        cases hinst
        exact hfrom hfrom'

/-! ## Stages of one name -/

/-- Stages of one name are told apart by their places, under any spelling of the name. -/
theorem countP_isNamed (stages : List Stage) (name : Text) :
    stages.countP (Stage.isNamed name) =
      (stages.filterMap Stage.name).countP fun own => Text.lowercase own.text = Text.lowercase name := by
  rw [List.countP_filterMap]
  congr 1
  funext stage
  unfold Stage.isNamed
  cases stage.name with
  | none => rfl
  | some own => exact beq_eq_decide _ _

def repeated (stages : List Stage) : List Excerpt :=
  (stages.filterMap Stage.name).filter fun name => 1 < stages.countP (Stage.isNamed name.text)

theorem duplicateStages_eq (stages : List Stage) :
    duplicateStages stages =
      (repeated stages).map fun name => ⟨.duplicateStageName name.text, name.span⟩ := by
  refine filterMap_eq_map_filter fun name _ => ?_
  by_cases hmany : 1 < stages.countP (Stage.isNamed name.text)
  · simp [hmany]
  · simp [hmany]

/-- A name is reported once if another stage has it, up to case. -/
theorem duplicateStages_oneIf {stages : List Stage}
    (hplaces : ((stages.filterMap Stage.name).map Excerpt.span).Nodup) {i : Nat} {stage : Stage}
    (hi : stages[i]? = some stage) {name : Excerpt} (hname : stage.name = some name) :
    OneIf (∃ j other, j ≠ i ∧ stages[j]? = some other ∧ Stage.isNamed name.text other = true)
      ((duplicateStages stages).countP fun f => f.span = name.span) := by
  have hmem : name ∈ stages.filterMap Stage.name :=
    List.mem_filterMap.mpr ⟨stage, List.mem_of_getElem? hi, hname⟩
  have hself : Stage.isNamed name.text stage = true := by simp [Stage.isNamed, hname, Text.sameIgnoringCase]
  have hrepeated : ((repeated stages).map Excerpt.span).Nodup :=
    hplaces.sublist (List.filter_sublist.map Excerpt.span)
  rw [duplicateStages_eq, List.countP_map]
  refine (oneIf_countP hrepeated name.span).of_iff ?_
  rw [← one_lt_countP_iff hi hself]
  constructor
  · rintro ⟨name', hname', hspan⟩
    obtain ⟨hname', hmany⟩ := List.mem_filter.mp hname'
    have hsame : name' = name := List.inj_on_of_nodup_map hplaces hname' hmem hspan
    rw [hsame] at hmany
    exact of_decide_eq_true hmany
  · intro hmany
    exact ⟨name, List.mem_filter.mpr ⟨hmem, decide_eq_true hmany⟩, rfl⟩

/-! ## Overridden instructions -/

def superseded (k : Keyword) : List Site → List Site
  | [] => []
  | site :: rest =>
      if site.instruction.isKind k &&
          rest.any (fun s => s.instruction.isKind k && s.scope == site.scope) then
        site :: superseded k rest
      else superseded k rest

theorem overridden_eq (k : Keyword) (sites : List Site) :
    overridden k sites =
      (superseded k sites).map fun site => ⟨.multipleInstructions k, site.instruction.keywordSpan⟩ := by
  induction sites with
  | nil => rfl
  | cons site rest ih =>
      rw [overridden, superseded, ih]
      split <;> rfl

theorem superseded_sublist (k : Keyword) (sites : List Site) :
    (superseded k sites).Sublist (sites.filter fun site => site.instruction.isKind k) := by
  induction sites with
  | nil => exact .slnil
  | cons site rest ih =>
      rw [superseded, List.filter_cons]
      by_cases hkind : site.instruction.isKind k = true
      · rw [if_pos hkind]
        split
        · exact ih.cons_cons site
        · exact ih.cons site
      · simpa [hkind] using ih

theorem superseded_isKind {k : Keyword} {sites : List Site} {site : Site}
    (h : site ∈ superseded k sites) : site ∈ sites ∧ site.instruction.isKind k = true := by
  simpa using (superseded_sublist k sites).mem h

theorem mem_superseded {k : Keyword} {sites : List Site} (hnodup : sites.Nodup) {i : Nat}
    {site : Site} (hi : sites[i]? = some site) (hkind : site.instruction.isKind k = true) :
    site ∈ superseded k sites ↔ ∃ j other, i < j ∧ sites[j]? = some other ∧
      other.instruction.isKind k = true ∧ other.scope = site.scope := by
  induction sites generalizing i with
  | nil => cases hi
  | cons s rest ih =>
      obtain ⟨hs, hnodup⟩ := List.nodup_cons.mp hnodup
      rw [superseded]
      cases i with
      | zero =>
          obtain rfl : s = site := by simpa using hi
          have hlater : s ∉ superseded k rest := fun h => hs (superseded_isKind h).1
          have hany : (rest.any fun other => other.instruction.isKind k && other.scope == s.scope) =
              true ↔ ∃ j other, 0 < j ∧ (s :: rest)[j]? = some other ∧
                other.instruction.isKind k = true ∧ other.scope = s.scope := by
            rw [List.any_eq_true]
            constructor
            · rintro ⟨other, hother, hsame⟩
              obtain ⟨j, hj⟩ := List.mem_iff_getElem?.mp hother
              exact ⟨j + 1, other, Nat.succ_pos j, by simpa using hj, by simpa using hsame⟩
            · rintro ⟨j, other, hj, hother, hsame⟩
              obtain ⟨j, rfl⟩ := Nat.exists_eq_succ_of_ne_zero (Nat.ne_of_gt hj)
              exact ⟨other, List.mem_iff_getElem?.mpr ⟨j, by simpa using hother⟩, by simpa using hsame⟩
          rw [← hany, hkind, Bool.true_and]
          split
          · rename_i htrue
            simp [htrue]
          · rename_i hfalse
            simp [hfalse, hlater]
      | succ i =>
          have hi : rest[i]? = some site := by simpa using hi
          have hne : site ≠ s := fun h => hs (h ▸ List.mem_of_getElem? hi)
          have hcons : (∃ j other, i + 1 < j ∧ (s :: rest)[j]? = some other ∧
                other.instruction.isKind k = true ∧ other.scope = site.scope) ↔
              ∃ j other, i < j ∧ rest[j]? = some other ∧
                other.instruction.isKind k = true ∧ other.scope = site.scope := by
            constructor
            · rintro ⟨j, other, hj, hother⟩
              obtain ⟨j, rfl⟩ := Nat.exists_eq_succ_of_ne_zero (Nat.ne_zero_of_lt hj)
              exact ⟨j, other, by omega, by simpa using hother⟩
            · rintro ⟨j, other, hj, hother⟩
              exact ⟨j + 1, other, by omega, by simpa using hother⟩
          rw [hcons, ← ih hnodup hi]
          split
          · rw [List.mem_cons]
            exact or_iff_right hne
          · rfl

theorem superseded_filter (k : Keyword) (sites : List Site) (scope : Scope) :
    ((superseded k sites).filter fun site => site.scope = scope) =
      ((sites.filter fun site => site.instruction.isKind k).filter fun site =>
        site.scope = scope).dropLast := by
  induction sites with
  | nil => rfl
  | cons site rest ih =>
      rw [superseded, List.filter_cons]
      by_cases hkind : site.instruction.isKind k = true
      · rw [if_pos hkind, hkind, Bool.true_and]
        by_cases hscope : site.scope = scope
        · rw [List.filter_cons_of_pos (by simpa using hscope)]
          by_cases hlater : rest.any (fun s => s.instruction.isKind k && s.scope == site.scope) = true
          · have hne : ((rest.filter fun s => s.instruction.isKind k).filter fun s =>
                s.scope = scope) ≠ [] := by
              obtain ⟨other, hother, hsame⟩ := List.any_eq_true.mp hlater
              simp only [Bool.and_eq_true, beq_iff_eq] at hsame
              exact List.ne_nil_of_mem (List.mem_filter.mpr ⟨List.mem_filter.mpr
                ⟨hother, hsame.1⟩, by simpa [hscope] using hsame.2⟩)
            rw [if_pos hlater, List.filter_cons_of_pos (by simpa using hscope), ih,
              List.dropLast_cons_of_ne_nil hne]
          · have hnil : ((rest.filter fun s => s.instruction.isKind k).filter fun s =>
                s.scope = scope) = [] := by
              simp only [List.any_eq_true, not_exists, not_and, Bool.not_eq_true, Bool.and_eq_false_iff]
                at hlater
              rw [List.filter_filter, List.filter_eq_nil_iff]
              intro other hother hboth
              simp only [Bool.and_eq_true, decide_eq_true_eq] at hboth
              rcases hlater other hother with h | h
              · rw [hboth.2] at h
                cases h
              · rw [hboth.1, hscope] at h
                simp at h
            rw [if_neg hlater, ih, hnil]
            rfl
        · rw [List.filter_cons_of_neg (by simpa using hscope)]
          split
          · rw [List.filter_cons_of_neg (by simpa using hscope), ih]
          · exact ih
      · simpa [hkind] using ih

theorem overridden_code {k : Keyword} {sites : List Site} :
    ∀ f ∈ overridden k sites, f.problem.code = .multipleInstructions := by
  rw [overridden_eq]
  intro f hf
  obtain ⟨site, -, rfl⟩ := List.mem_map.mp hf
  rfl

theorem duplicateStages_code {stages : List Stage} :
    ∀ f ∈ duplicateStages stages, f.problem.code = .duplicateStageName := by
  rw [duplicateStages_eq]
  intro f hf
  obtain ⟨name, -, rfl⟩ := List.mem_map.mp hf
  rfl

/-! ## Counting findings -/

theorem countP_file (f : File) (scopes : ScopeTable) {p : Finding → Bool}
    (hp : ∀ f, p f = true → f.problem.code.subject = .file) :
    (file f scopes).countP p = (sourceImage f.instructions).countP p +
      (duplicateStages scopes.stages).countP p + ((overridden .CMD scopes.sites).countP p +
        (overridden .ENTRYPOINT scopes.sites).countP p +
          (overridden .HEALTHCHECK scopes.sites).countP p) := by
  have hdirectives : (f.directives.flatMap directive).countP p = 0 := by
    rw [List.countP_eq_zero]
    intro finding hfinding hpf
    have hsubject := about_flatMap (fun d _ => directive_directive d) finding hfinding
    rw [hp finding hpf] at hsubject
    cases hsubject
  have hinstructions : (f.instructions.flatMap withEmptyLines).countP p = 0 := by
    rw [List.countP_eq_zero]
    intro finding hfinding hpf
    obtain ⟨inst, -, hfinding⟩ := List.mem_flatMap.mp hfinding
    exact withEmptyLines_subject inst finding hfinding (hp finding hpf)
  simp only [file, List.countP_append, hdirectives, hinstructions]
  omega

section Codes

variable {f : File} {scopes : ScopeTable} {p : Finding → Bool}

theorem countP_file_sourceImage (hp : ∀ f, p f = true → f.problem.code = .noSourceImage) :
    (file f scopes).countP p = (sourceImage f.instructions).countP p := by
  have hoverridden : ∀ k, (overridden k scopes.sites).countP p = 0 := fun k =>
    countP_eq_zero_of_code hp (by decide) overridden_code
  rw [countP_file f scopes fun f hf => by rw [hp f hf]; rfl, hoverridden, hoverridden, hoverridden,
    countP_eq_zero_of_code hp (by decide) duplicateStages_code]
  rfl

theorem countP_file_duplicateStages (hp : ∀ f, p f = true → f.problem.code = .duplicateStageName) :
    (file f scopes).countP p = (duplicateStages scopes.stages).countP p := by
  have hoverridden : ∀ k, (overridden k scopes.sites).countP p = 0 := fun k =>
    countP_eq_zero_of_code hp (by decide) overridden_code
  rw [countP_file f scopes fun f hf => by rw [hp f hf]; rfl, hoverridden, hoverridden, hoverridden,
    countP_eq_zero_of_code hp (by decide) sourceImage_code]
  omega

theorem countP_file_overridden (hp : ∀ f, p f = true → f.problem.code = .multipleInstructions) :
    (file f scopes).countP p = (overridden .CMD scopes.sites).countP p +
        (overridden .ENTRYPOINT scopes.sites).countP p +
          (overridden .HEALTHCHECK scopes.sites).countP p := by
  rw [countP_file f scopes fun f hf => by rw [hp f hf]; rfl,
    countP_eq_zero_of_code hp (by decide) sourceImage_code,
    countP_eq_zero_of_code hp (by decide) duplicateStages_code]
  omega

end Codes

/-! ## Overridden instructions of a file -/

theorem sites_nodup (insts : List Instruction) : (Site.ofInstructions 0 .global insts).Nodup := by
  have hindex : ((Site.ofInstructions 0 .global insts).map Site.index).Nodup := by
    rw [Site.map_index]
    exact List.nodup_range'
  exact hindex.of_map _

theorem scopeOf_of_site {insts : List Instruction} {i : Nat} {site : Site}
    (h : (Site.ofInstructions 0 .global insts)[i]? = some site) :
    (ScopeTable.ofInstructions insts).scopeOf i = site.scope := by
  unfold ScopeTable.scopeOf
  rw [show (ScopeTable.ofInstructions insts).sites[i]? = some site from h]

theorem exists_site {insts : List Instruction} {i : Nat} {inst : Instruction}
    (hi : insts[i]? = some inst) :
    ∃ site, (Site.ofInstructions 0 .global insts)[i]? = some site ∧ site.instruction = inst := by
  rwa [← Site.map_instruction 0 .global insts, List.getElem?_map, Option.map_eq_some_iff] at hi

theorem exists_superseded_iff {insts : List Instruction} {i : Nat} {inst : Instruction} {k : Keyword}
    (hspans : (insts.map Instruction.keywordSpan).Nodup) (hi : insts[i]? = some inst)
    (hkind : inst.isKind k = true) :
    (∃ site ∈ superseded k (ScopeTable.ofInstructions insts).sites,
        site.instruction.keywordSpan = inst.keywordSpan) ↔
      ∃ j other, i < j ∧ insts[j]? = some other ∧ other.isKind k = true ∧
        (ScopeTable.ofInstructions insts).scopeOf j = (ScopeTable.ofInstructions insts).scopeOf i := by
  obtain ⟨site, hsite, rfl⟩ := exists_site hi
  have hmem := mem_superseded (sites_nodup insts) hsite hkind
  have hspans : ((Site.ofInstructions 0 .global insts).map fun s => s.instruction.keywordSpan).Nodup := by
    rwa [← Site.map_instruction 0 .global insts, List.map_map] at hspans
  constructor
  · rintro ⟨site', hsite', hspan⟩
    have hsame : site' = site := List.inj_on_of_nodup_map hspans (superseded_isKind hsite').1
      (List.mem_of_getElem? hsite) hspan
    obtain ⟨j, other, hij, hj, hkind', hscope'⟩ := hmem.mp (hsame ▸ hsite')
    refine ⟨j, other.instruction, hij, ?_, hkind', ?_⟩
    · rw [← Site.map_instruction 0 .global insts, List.getElem?_map]
      exact congrArg (Option.map Site.instruction) hj
    · rw [scopeOf_of_site hj, scopeOf_of_site hsite, hscope']
  · rintro ⟨j, other, hij, hj, hkind', hscope'⟩
    obtain ⟨other, hother, rfl⟩ := exists_site hj
    rw [scopeOf_of_site hother, scopeOf_of_site hsite] at hscope'
    exact ⟨site, hmem.mpr ⟨j, other, hij, hother, hkind', hscope'⟩, rfl⟩

theorem overridden_oneIf {insts : List Instruction} {i : Nat} {inst : Instruction} {k : Keyword}
    (hspans : (insts.map Instruction.keywordSpan).Nodup) (hi : insts[i]? = some inst)
    (hkind : inst.isKind k = true) (k' : Keyword) :
    OneIf (k' = k ∧ ∃ j other, i < j ∧ insts[j]? = some other ∧ other.isKind k = true ∧
        (ScopeTable.ofInstructions insts).scopeOf j = (ScopeTable.ofInstructions insts).scopeOf i)
      ((overridden k' (ScopeTable.ofInstructions insts).sites).countP fun f =>
        f.span = inst.keywordSpan) := by
  have hsites : ((ScopeTable.ofInstructions insts).sites.map fun s =>
      s.instruction.keywordSpan).Nodup := by
    rwa [← Site.map_instruction 0 .global insts, List.map_map] at hspans
  have hsub := ((superseded_sublist k' (ScopeTable.ofInstructions insts).sites).trans
    List.filter_sublist).map fun s => s.instruction.keywordSpan
  rw [overridden_eq, List.countP_map]
  refine (oneIf_countP (hsites.sublist hsub) inst.keywordSpan).of_iff ?_
  rw [← exists_superseded_iff hspans hi hkind]
  constructor
  · rintro ⟨site, hsite, hspan⟩
    obtain ⟨hmem, hkind'⟩ := superseded_isKind hsite
    have hsame : site.instruction = inst := List.inj_on_of_nodup_map hspans
      (Site.instruction_mem hmem) (List.mem_of_getElem? hi) hspan
    have hk : k' = k := by
      rw [hsame, Instruction.isKind, eq_of_beq hkind] at hkind'
      exact (Option.some.inj (eq_of_beq hkind')).symm
    exact ⟨hk, site, hk ▸ hsite, hspan⟩
  · rintro ⟨rfl, hfound⟩
    exact hfound

end Check

end Dockerfile
