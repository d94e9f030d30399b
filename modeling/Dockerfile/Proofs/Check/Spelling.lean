import Dockerfile.Proofs.Check.CrossChecks
import Dockerfile.Proofs.Check.KeywordCase

/-!
# The spelling of keywords

Keywords may be written in any case. A text with other cases in its keywords is read alike, has the
same scopes and the same reports, but for those about the case itself; and these are made once for
every known keyword with a lower-case letter (`analyze_recased`).
-/

namespace Dockerfile

/-! ## Counting -/

section Counts

variable {α β : Type} {p : β → Bool} {xs : List α} {f g : α → List β}

theorem countP_flatMap_congr (h : ∀ x ∈ xs, (f x).countP p = (g x).countP p) :
    (xs.flatMap f).countP p = (xs.flatMap g).countP p := by
  induction xs with
  | nil => rfl
  | cons x xs ih =>
      rw [List.flatMap_cons, List.flatMap_cons, List.countP_append, List.countP_append,
        h x List.mem_cons_self, ih fun y hy => h y (List.mem_cons_of_mem _ hy)]

theorem countP_flatMap_eq {x : α} (hx : x ∈ xs) (hnodup : xs.Nodup)
    (h : ∀ y ∈ xs, ∀ b ∈ f y, p b = true → y = x) : (xs.flatMap f).countP p = (f x).countP p := by
  obtain ⟨front, rest, rfl⟩ := List.append_of_mem hx
  have hother : ∀ ys : List α, ys ⊆ front ++ x :: rest → x ∉ ys → (ys.flatMap f).countP p = 0 := by
    intro ys hys hne
    refine List.countP_eq_zero.mpr fun b hb hp => hne ?_
    obtain ⟨y, hy, hb⟩ := List.mem_flatMap.mp hb
    rwa [← h y (hys hy) b hb hp]
  obtain ⟨-, hrest, hdisjoint⟩ := List.nodup_append.mp hnodup
  have hfront : (front.flatMap f).countP p = 0 :=
    hother front (List.subset_append_left _ _)
      fun hmem => hdisjoint x hmem x List.mem_cons_self rfl
  have hbehind : (rest.flatMap f).countP p = 0 :=
    hother rest (fun y hy => List.mem_append_right _ (List.mem_cons_of_mem _ hy))
      (List.nodup_cons.mp hrest).1
  rw [List.flatMap_append, List.flatMap_cons, List.countP_append, List.countP_append, hfront,
    hbehind, Nat.zero_add, Nat.add_zero]

end Counts

/-! ## Deferred keywords -/

namespace Instruction

theorem trigger?_chars {inst trigger : Instruction} (h : inst.trigger? = some trigger) :
    trigger.isNamed = true ∧ trigger.chars <:+ inst.region.chars := by
  unfold trigger? at h
  split at h
  · split at h
    · cases h
    · rename_i first rest hregion
      cases h
      have hhead : isBlank first.char = false := by
        have := List.head?_dropWhile_not (fun p : Placed => isBlank p.char) inst.region.chars
        rw [hregion] at this
        simpa using this
      refine ⟨?_, ?_⟩
      · simp [isNamed, ofParts, Excerpt.part, Excerpt.isEmpty, hhead]
      · show (first :: rest).takeWhile (fun p => !isBlank p.char) ++
          (first :: rest).dropWhile (fun p => !isBlank p.char) <:+ _
        rw [List.takeWhile_append_dropWhile]
        exact suffix_of_dropWhile hregion
  · cases h

namespace Defers

theorem of_trigger {inst trigger t : Instruction} (h : inst.trigger? = some trigger)
    (ht : trigger.Defers t) : inst.Defers t := by
  induction ht with
  | self => exact .trigger .self h
  | trigger _ hinner ih => exact .trigger ih hinner

theorem inside {inst t : Instruction} (h : inst.Defers t) (hnamed : inst.isNamed = true) :
    t.isNamed = true ∧ t.chars ⊆ inst.chars := by
  induction h with
  | self => exact ⟨hnamed, List.Subset.refl _⟩
  | trigger _ hinner ih =>
      obtain ⟨hname, hsuffix⟩ := trigger?_chars hinner
      exact ⟨hname, fun p hp => ih.2 (List.mem_append_right _ (hsuffix.mem hp))⟩

end Defers

end Instruction

/-! ## Miscased keywords -/

/-- The keyword is known, and has a letter in lower case. -/
def Instruction.Miscased (inst : Instruction) : Prop :=
  inst.kind.isSome = true ∧ ∃ c ∈ inst.keyword.text, c.isLower = true

theorem Text.ne_uppercase_iff (text : Text) :
    text ≠ uppercase text ↔ ∃ c ∈ text, c.isLower = true := by
  have hall : text = uppercase text ↔ ∀ c ∈ text, c.isLower = false := by
    have hsame : uppercase text = text.map id ↔ ∀ c ∈ text, c.toUpper = c := List.map_inj_left
    rw [List.map_id] at hsame
    rw [eq_comm, hsame]
    exact forall₂_congr fun c _ => toUpper_eq_iff c
  rw [ne_eq, hall]
  simp

namespace Check

/-- Behind a keyword only that of a deferred instruction is looked at. -/
theorem exists_trigger_of_behindKeyword {inst : Instruction} {k : Keyword} {f : Finding}
    (hf : f ∈ behindKeyword k inst) (hsubject : f.problem.code.subject = .keyword) :
    ∃ trigger, inst.trigger? = some trigger ∧ f ∈ instruction trigger := by
  have hother : ∀ {findings : List Finding}, About .argument findings → f ∉ findings := by
    intro findings habout hmem
    rw [habout f hmem] at hsubject
    cases hsubject
  unfold behindKeyword at hf
  split at hf
  · exact absurd hf (hother (about_singleton rfl))
  rcases List.mem_append.mp hf with hf | hf
  · refine absurd hf (hother (.append ?_ ?_))
    · exact about_ite (quotes_argument inst) about_nil
    · exact about_ite (flags_argument k _) about_nil
  split at hf
  · exact absurd hf (hother (ofKeyword_argument inst k))
  · rename_i trigger htrigger
    refine ⟨trigger, htrigger, ?_⟩
    unfold deferred at hf
    split at hf
    · exact absurd hf (hother (about_singleton rfl))
    · exact absurd hf (hother (about_singleton rfl))
    · exact absurd hf (hother (about_singleton rfl))
    · exact hf

theorem miscased_of_mem_keyword {k : Keyword} {inst : Instruction} {f : Finding}
    (hkind : inst.kind = some k) (hf : f ∈ keyword k inst)
    (hcode : f.problem.code = .casingInstruction) : inst.Miscased ∧ f.span = inst.keywordSpan := by
  rcases List.mem_append.mp hf with hf | hf
  · split at hf
    · rename_i hne
      rw [List.mem_singleton.mp hf]
      exact ⟨⟨by rw [hkind]; rfl, (Text.ne_uppercase_iff _).mp hne⟩, rfl⟩
    · cases hf
  · split at hf
    · rw [List.mem_singleton.mp hf] at hcode
      cases hcode
    · cases hf

/-- A finding about the spelling of a keyword stands at one that is miscased, deferred or not. -/
theorem exists_miscased {inst : Instruction} {f : Finding} (hf : f ∈ instruction inst)
    (hcode : f.problem.code = .casingInstruction) :
    ∃ t, inst.Defers t ∧ t.Miscased ∧ f.span = t.keywordSpan := by
  cases hkind : inst.kind with
  | none =>
      rw [instruction_of_unknown hkind, List.mem_singleton] at hf
      rw [hf] at hcode
      cases hcode
  | some k =>
      rw [instruction_of_kind hkind] at hf
      rcases List.mem_append.mp hf with hf | hf
      · exact ⟨inst, .self, miscased_of_mem_keyword hkind hf hcode⟩
      · obtain ⟨trigger, htrigger, hf⟩ := exists_trigger_of_behindKeyword hf (by rw [hcode]; rfl)
        obtain ⟨t, ht, hmiscased⟩ := exists_miscased hf hcode
        exact ⟨t, .of_trigger htrigger ht, hmiscased⟩
termination_by inst.region.chars.length
decreasing_by exact Instruction.trigger?_length htrigger

theorem countP_keyword {p : Finding → Bool} (hp : ∀ f, p f = true → f.problem.code = .casingInstruction)
    (k : Keyword) {inst : Instruction} (hspan : p ⟨.casingInstruction, inst.keywordSpan⟩ = true) :
    OneIf (∃ c ∈ inst.keyword.text, c.isLower = true) ((keyword k inst).countP p) := by
  have hdeprecated : (if k = .MAINTAINER then [(⟨.deprecatedMaintainer, inst.keywordSpan⟩ : Finding)]
      else []).countP p = 0 := by
    refine List.countP_eq_zero.mpr fun f hf hpf => ?_
    split at hf
    · have hcode := hp f hpf
      rw [List.mem_singleton.mp hf] at hcode
      cases hcode
    · cases hf
  rw [keyword, List.countP_append, hdeprecated, Nat.add_zero, ← Text.ne_uppercase_iff]
  refine ⟨fun hne => ?_, fun hsame => ?_⟩
  · rw [if_pos hne, List.countP_singleton, if_pos hspan]
  · rw [if_neg hsame]
    rfl

/-- Of the checks of a file only that of single instructions looks at keywords. -/
theorem countP_file_keyword (f : File) (scopes : ScopeTable) {p : Finding → Bool}
    (hp : ∀ f, p f = true → f.problem.code.subject = .keyword) :
    (file f scopes).countP p = (f.instructions.flatMap instruction).countP p := by
  have hnone : ∀ {findings : List Finding},
      (∀ finding ∈ findings, finding.problem.code.subject ≠ .keyword) → findings.countP p = 0 := by
    intro findings h
    exact List.countP_eq_zero.mpr fun finding hfinding hpf => h finding hfinding (hp finding hpf)
  have hcode : ∀ {findings : List Finding} {code : Code}, code.subject ≠ .keyword →
      (∀ finding ∈ findings, finding.problem.code = code) → findings.countP p = 0 := by
    intro findings code hne h
    exact hnone fun finding hfinding => by rwa [h finding hfinding]
  have hdirectives : (f.directives.flatMap directive).countP p = 0 := by
    refine hnone fun finding hfinding => ?_
    rw [about_flatMap (fun d _ => directive_directive d) finding hfinding]
    decide
  have hinstructions : (f.instructions.flatMap withEmptyLines).countP p =
      (f.instructions.flatMap instruction).countP p := by
    refine countP_flatMap_congr fun inst _ => ?_
    have hlines : (inst.emptyLines.map fun line =>
        (⟨.emptyContinuationLine, line⟩ : Finding)).countP p = 0 := by
      refine hcode (by decide : Code.emptyContinuationLine.subject ≠ .keyword) fun f hf => ?_
      obtain ⟨line, -, rfl⟩ := List.mem_map.mp hf
      rfl
    rw [withEmptyLines, List.countP_append, hlines, Nat.add_zero]
  have hoverridden : ∀ k, (overridden k scopes.sites).countP p = 0 := fun k =>
    hcode (by decide) overridden_code
  have hsource : (sourceImage f.instructions).countP p = 0 := hcode (by decide) sourceImage_code
  have hstages : (duplicateStages scopes.stages).countP p = 0 :=
    hcode (by decide) duplicateStages_code
  simp only [file, List.countP_append, hdirectives, hinstructions, hoverridden, hsource, hstages,
    Nat.zero_add, Nat.add_zero]

end Check

/-! ## Keywords at their places -/

theorem Text.eq_of_mem_place {offset : Nat} {text : Text} {p q : Placed} (hp : p ∈ place offset text)
    (hq : q ∈ place offset text) (h : p.offset = q.offset) : p = q := by
  by_contra hne
  have hapart : (place offset text).Pairwise fun p q => p.offset ≠ q.offset :=
    (pairwise_place offset text).imp fun {p q} hpq => by
      have := p.offset_lt_stop
      omega
  have hsymm : Std.Symm fun p q : Placed => p.offset ≠ q.offset := ⟨fun _ _ => Ne.symm⟩
  exact hapart.forall hp hq hne h

namespace File

theorem instructions_nodup (text : Text) : (parse text).instructions.Nodup :=
  (nodup_spans (keywordSpans_increasing text)).of_map _

section Instructions

variable {text : Text} {inst : Instruction} (hinst : inst ∈ (parse text).instructions)
include hinst

theorem widen_keywordSpan {t : Instruction} (h : inst.Defers t) :
    Text.widen text t.keywordSpan = t.keywordSpan := by
  have hwithin := ((instruction_within hinst).defers h).keyword
  refine Text.widen_of_wellPlaced hwithin.span (hwithin.span_isEmpty fun hnil => ?_)
  have hnamed := (h.inside (isNamed_of_mem hinst)).1
  simp [Instruction.isNamed, Excerpt.isEmpty, hnil] at hnamed

/-- Keywords at one place share characters, also if one is deferred. -/
theorem exists_mem_keywords {other t : Instruction} (hother : other ∈ (parse text).instructions)
    (h : other.Defers t) (hspan : t.keywordSpan = inst.keywordSpan) :
    ∃ p ∈ inst.keyword.chars, p ∈ t.keyword.chars := by
  obtain ⟨p, hp, hstart⟩ := Instruction.keywordSpan_start (isNamed_of_mem hinst)
  obtain ⟨q, hq, hstart'⟩ := Instruction.keywordSpan_start (h.inside (isNamed_of_mem hother)).1
  have hsame : p = q := Text.eq_of_mem_place ((instruction_within hinst).keyword.chars.mem hp)
    (((instruction_within hother).defers h).keyword.chars.mem hq)
    (by rw [← hstart, ← hstart', hspan])
  exact ⟨p, hp, hsame ▸ hq⟩

end Instructions

end File

/-! ## Reports about spelling -/

namespace Analysis

variable {text : Text} {settings : Settings}

/-- The spelling of a keyword is reported once at its place if it is known and not in upper case. -/
theorem reportsAt_casingInstruction (h : settings.Complete) {inst : Instruction}
    (hinst : inst ∈ (File.parse text).instructions) :
    OneIf inst.Miscased ((analyze text settings).reportsAt .casingInstruction inst.keywordSpan) := by
  let p : Finding → Bool := fun f =>
    f.problem.code = .casingInstruction ∧ Text.widen text f.span = inst.keywordSpan
  have hcode : ∀ f, p f = true → f.problem.code = .casingInstruction := fun f hf =>
    (of_decide_eq_true hf).1
  have hspan : ∀ {other t : Instruction} {f : Finding}, other ∈ (File.parse text).instructions →
      other.Defers t → f.span = t.keywordSpan → p f = true → t.keywordSpan = inst.keywordSpan := by
    intro other t f hother ht hf hpf
    rw [← (of_decide_eq_true hpf).2, hf, File.widen_keywordSpan hother ht]
  -- The other instructions have their keywords, and those they defer, elsewhere.
  have hothers : ∀ other ∈ (File.parse text).instructions, ∀ f ∈ Check.instruction other,
      p f = true → other = inst := by
    intro other hother f hf hpf
    obtain ⟨t, ht, -, hplace⟩ := Check.exists_miscased hf (hcode f hpf)
    obtain ⟨q, hq, hq'⟩ := File.exists_mem_keywords hinst hother ht (hspan hother ht hplace hpf)
    refine File.eq_of_mem_chars (File.mem_logicalLines hother) (File.mem_logicalLines hinst) ?_
      (List.mem_append_left _ hq)
    exact (ht.inside (File.isNamed_of_mem hother)).2 (List.mem_append_left _ hq')
  have hcount : (analyze text settings).reportsAt .casingInstruction inst.keywordSpan =
      (Check.instruction inst).countP p := by
    rw [reportsAt_eq h, findings,
      Check.countP_file_keyword _ _ fun f hf => by rw [(of_decide_eq_true hf).1]; rfl]
    exact countP_flatMap_eq hinst (File.instructions_nodup text) hothers
  rw [hcount]
  cases hkind : inst.kind with
  | none =>
      have hunknown : ¬inst.Miscased := fun hmiscased => by
        rw [Instruction.Miscased, hkind] at hmiscased
        cases hmiscased.1
      refine ⟨fun hmiscased => absurd hmiscased hunknown, fun _ => ?_⟩
      rw [Check.instruction_of_unknown hkind]
      refine List.countP_eq_zero.mpr fun f hf hpf => ?_
      rw [List.mem_singleton] at hf
      have := hcode f hpf
      rw [hf] at this
      cases this
  | some k =>
      -- What is deferred has its keyword in the region.
      have hbehind : (Check.behindKeyword k inst).countP p = 0 := by
        refine List.countP_eq_zero.mpr fun f hf hpf => ?_
        obtain ⟨trigger, htrigger, hf⟩ :=
          Check.exists_trigger_of_behindKeyword hf (by rw [hcode f hpf]; rfl)
        obtain ⟨t, ht, -, hplace⟩ := Check.exists_miscased hf (hcode f hpf)
        have hdefers := Instruction.Defers.of_trigger htrigger ht
        obtain ⟨q, hq, hq'⟩ :=
          File.exists_mem_keywords hinst hinst hdefers (hspan hinst hdefers hplace hpf)
        obtain ⟨hnamed, hsuffix⟩ := Instruction.trigger?_chars htrigger
        have hregion := hsuffix.mem ((ht.inside hnamed).2 (List.mem_append_left _ hq'))
        exact File.not_mem_keyword_of_region hinst hregion inst hinst hq
      rw [Check.instruction_of_kind hkind, List.countP_append, hbehind, Nat.add_zero]
      refine (Check.countP_keyword hcode k ?_).of_iff ?_
      · exact decide_eq_true ⟨rfl, File.widen_keywordSpan hinst .self⟩
      · rw [Instruction.Miscased, hkind]
        exact (and_iff_right rfl).symm

/-- All reports about spelling stand at miscased keywords, deferred or not. -/
theorem exists_miscased {d : Diagnostic} (hd : d ∈ (analyze text settings).diagnostics)
    (hcode : d.code = .casingInstruction) :
    ∃ inst ∈ (File.parse text).instructions, ∃ t,
      inst.Defers t ∧ t.Miscased ∧ d.span = t.keywordSpan := by
  obtain ⟨f, hf, hreport⟩ := mem_diagnostics_iff.mp hd
  obtain ⟨severity, -, rfl⟩ := Option.map_eq_some_iff.mp hreport
  have hcode : f.problem.code = .casingInstruction := hcode
  have hf : f ∈ (File.parse text).instructions.flatMap Check.instruction := by
    have hcount : 0 < (analyze text settings).findings.countP (· = f) :=
      List.countP_pos_iff.mpr ⟨f, hf, decide_eq_true rfl⟩
    rw [findings, Check.countP_file_keyword _ _ fun g hg => by
      rw [of_decide_eq_true hg, hcode]; rfl] at hcount
    obtain ⟨g, hg, hsame⟩ := List.countP_pos_iff.mp hcount
    exact of_decide_eq_true hsame ▸ hg
  obtain ⟨inst, hinst, hf⟩ := List.mem_flatMap.mp hf
  obtain ⟨t, ht, hmiscased, hspan⟩ := Check.exists_miscased hf hcode
  refine ⟨inst, hinst, t, ht, hmiscased, ?_⟩
  rw [← File.widen_keywordSpan hinst ht, ← hspan]

/-- The analyses differ in the spelling of keywords, and in reports about it. -/
structure SameButCase (a b : Analysis) : Prop where
  directives : a.file.directives = b.file.directives
  instructions : a.file.instructions.map Instruction.capitalized =
    b.file.instructions.map Instruction.capitalized
  scopes : a.scopes.capitalized = b.scopes.capitalized
  diagnostics : (a.diagnostics.filter fun d => d.code ≠ .casingInstruction) =
    b.diagnostics.filter fun d => d.code ≠ .casingInstruction

theorem sameButCase_of_recased {text text' : Text} (h : File.Recased text text')
    (settings : Settings) : (analyze text' settings).SameButCase (analyze text settings) := by
  obtain ⟨hlower, hdirectives, hinstructions⟩ := File.parse_recased h
  have hscopes : (ScopeTable.ofFile (File.parse text')).capitalized =
      (ScopeTable.ofFile (File.parse text)).capitalized := by
    rw [ScopeTable.ofFile, ScopeTable.ofFile, ← ScopeTable.ofInstructions_capitalized,
      ← ScopeTable.ofInstructions_capitalized, hinstructions]
  refine ⟨hdirectives, hinstructions, hscopes, ?_⟩
  have hreport : Diagnostic.ofFinding? text' settings = Diagnostic.ofFinding? text settings := by
    funext f
    simp only [Diagnostic.ofFinding?, Text.widen_eq_of_lowercase hlower,
      Text.rangeOf_eq_of_lowercase hlower]
  have hfindings :
      Check.uncased (Check.file (File.parse text') (ScopeTable.ofFile (File.parse text'))) =
        Check.uncased (Check.file (File.parse text) (ScopeTable.ofFile (File.parse text))) := by
    rw [Check.uncased_file, Check.uncased_file (File.parse text), hscopes, hinstructions]
    simp only [Check.file, hdirectives]
  show ((Check.diagnostics text' _ _ settings).filter _) =
    (Check.diagnostics text _ _ settings).filter _
  rw [Check.diagnostics_uncased, Check.diagnostics_uncased, hreport, hfindings]

end Analysis

/-- The case of keywords has no part in what is read from a text, nor in what is reported about it
but for the case itself. That is reported by default once for each known keyword with a letter in
lower case, and else at deferred keywords only. -/
theorem analyze_recased (text : Text) :
    (∀ text' settings, File.Recased text text' →
        (analyze text' settings).SameButCase (analyze text settings)) ∧
      (∀ inst ∈ (analyze text {}).file.instructions,
        OneIf inst.Miscased
          ((analyze text {}).reportsAt .casingInstruction inst.keywordSpan)) ∧
      ∀ d ∈ (analyze text {}).diagnostics, d.code = .casingInstruction →
        ∃ inst ∈ (analyze text {}).file.instructions, ∃ t,
          inst.Defers t ∧ t.Miscased ∧ d.span = t.keywordSpan :=
  ⟨fun _ settings h => Analysis.sameButCase_of_recased h settings,
    fun _ hinst => Analysis.reportsAt_casingInstruction Settings.complete_default hinst,
    fun _ hd hcode => Analysis.exists_miscased hd hcode⟩

/-- Of `from` and `Run` each is reported once; all else is as if they had been in upper case. -/
theorem recased_run :
    let text := "FROM a\nRUN b".toList
    let text' := "from a\nRun b".toList
    File.Recased text text' ∧ (analyze text' {}).SameButCase (analyze text {}) ∧
      (analyze text' {}).reportsAt .casingInstruction ⟨7, 10⟩ = 1 := by
  intro text text'
  have hrecased : File.Recased text text' := by decide +kernel
  refine ⟨hrecased, (analyze_recased text).1 text' {} hrecased, ?_⟩
  obtain ⟨inst, hinst⟩ : ∃ inst, (analyze text' {}).file.instructions[1]? = some inst :=
    Option.isSome_iff_exists.mp (by decide +kernel)
  obtain ⟨hspan, hkind, hlower⟩ :=
    (by decide +kernel : ∀ inst ∈ (analyze text' {}).file.instructions[1]?,
      inst.keywordSpan = ⟨7, 10⟩ ∧ inst.kind.isSome = true ∧
        inst.keyword.text.any Char.isLower = true) inst hinst
  rw [← hspan]
  exact ((analyze_recased text').2.1 inst (List.mem_of_getElem? hinst)).1
    ⟨hkind, List.any_eq_true.mp hlower⟩

end Dockerfile
