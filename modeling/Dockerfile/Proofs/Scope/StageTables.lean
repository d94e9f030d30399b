import Dockerfile.Check.Arguments
import Dockerfile.Proofs.Scope.StageNames
import Dockerfile.Proofs.Scope.StageResolution

/-!
# Tables with a renamed stage

Where the mentions of a stage get a new name, so does the stage, and what the sources of the file
stand for is known (`File.stages_respelled`). The references are the same if each reference to the
stage follows it, and only then (`File.stageReferences_respelled`).
-/

namespace Dockerfile

/-! ## Names for stages -/

def isStageNameChar (c : Char) : Bool :=
  c.isAlphanum || c == '_' || c == '.' || c == '-'

section Names

variable {new : Text} (h : isValidStageName new = true)

include h

theorem exists_of_isValidStageName : ∃ c rest, new = c :: rest ∧ c.isAlpha = true := by
  cases new with
  | nil => cases h
  | cons c rest => exact ⟨c, rest, rfl, (Bool.and_eq_true_iff.mp h).1⟩

theorem isStageNameChar_of_mem : ∀ c ∈ new, isStageNameChar c = true := by
  obtain ⟨c, rest, rfl, hc⟩ := exists_of_isValidStageName h
  refine List.forall_mem_cons.mpr ⟨?_, List.all_eq_true.mp (Bool.and_eq_true_iff.mp h).2⟩
  simp [isStageNameChar, Char.isAlphanum, hc]

theorem ne_of_isValidStageName {c d : Char} (hc : c ∈ new) (hd : isStageNameChar d = false) :
    c ≠ d := by
  rintro rfl
  rw [isStageNameChar_of_mem h c hc] at hd
  cases hd

/-- The name of a stage stands for itself wherever it is written. -/
theorem plain_of_isValidStageName {escape : Char} (he : isStageNameChar escape = false) :
    ∀ c ∈ new, Body.endsWord c = false ∧ Argument.Word.isPlain escape c = true := by
  intro c hc
  have hne {d : Char} := @ne_of_isValidStageName _ h c d hc
  simp [Body.endsWord, Argument.Word.isPlain, isBlank, isLineBreak, hne (d := ' ') (by decide),
    hne (d := '\t') (by decide), hne (d := '\r') (by decide), hne (d := '\n') (by decide),
    hne (d := '"') (by decide), hne (d := '\x27') (by decide), hne he]

theorem number?_of_isValidStageName : StageReference.number? new = none := by
  obtain ⟨c, rest, rfl, hc⟩ := exists_of_isValidStageName h
  have hplus : c ≠ '+' := by
    rintro rfl
    cases hc
  have hletter : 'A'.val ≤ c.val := by
    rcases Bool.or_eq_true_iff.mp hc with hupper | hlower
    · exact (of_decide_eq_true hupper).1
    · have hfirst : 'a'.val ≤ c.val := of_decide_eq_true (Bool.and_eq_true_iff.mp hlower).1
      exact UInt32.le_trans (by decide) hfirst
  have hdigit : c.isDigit = false := by
    refine Bool.eq_false_iff.mpr fun hdigit => ?_
    have hlast : c.val ≤ '9'.val := of_decide_eq_true (Bool.and_eq_true_iff.mp hdigit).2
    exact absurd (UInt32.le_trans hletter hlast) (by decide)
  simp [StageReference.number?, hplus, hdigit]

theorem head_of_isValidStageName : ∀ c ∈ new.head?, c ≠ '#' ∧ c ≠ '-' := by
  obtain ⟨c, rest, rfl, hc⟩ := exists_of_isValidStageName h
  rintro d ⟨⟩
  constructor <;> (rintro rfl; cases hc)

end Names

/-- The name can be given to a stage, and the tables have it nowhere: neither as a name nor as a
source, up to case. -/
structure ScopeTable.IsFreshStageName (table : ScopeTable) (new : Text) : Prop where
  isValid : isValidStageName new = true
  stages : ∀ s ∈ table.stages, Stage.isNamed new s = false
  images : ∀ s ∈ table.stages, ∀ image ∈ s.image, Text.sameIgnoringCase image.text new = false
  sources : ∀ r ∈ table.stageReferences, Text.sameIgnoringCase r.name new = false

theorem Instruction.isBlank_of_mem_stageMentions {inst : Instruction} {v : List Placed}
    (hv : v ∈ inst.stageMentions)
    (hmark : ∀ c ∈ "--from=".toList, Argument.Word.isPlain inst.escape c = true) {p : Placed}
    (hp : v.head? = some p) : isBlank p.char = false := by
  obtain ⟨arg, harg, hne, a, hchars, htext⟩ := exists_bearer hv
  obtain ⟨q, rest, -, hread⟩ := Argument.exists_read_of_mem harg
  have happend := Argument.Word.read_append inst.escape none (q :: rest)
  have ha : ∀ r ∈ a, Argument.Word.isPlain inst.escape r.char = true := by
    intro r hr
    have hin : r.char ∈ inst.sourceMark := by
      rw [← htext]
      exact List.mem_map_of_mem hr
    unfold sourceMark at hin
    split at hin
    · cases hin
    · exact hmark r.char hin
  rw [hread] at hchars
  rw [hchars, List.append_assoc] at happend
  rw [← happend, Argument.Word.read_of_plain ha] at hchars
  by_contra hblank
  obtain ⟨v, rfl⟩ := List.head?_eq_some_iff.mp hp
  rw [List.cons_append,
    Argument.Word.read_of_blank (.inr ⟨p, _, rfl, by simpa using hblank⟩)] at hchars
  simp [Argument.Word.prepend] at hchars

/-! ## Sites -/

namespace Site

theorem map_index (index : Nat) (scope : Scope) (insts : List Instruction) :
    (ofInstructions index scope insts).map Site.index =
      List.range' index (ofInstructions index scope insts).length := by
  induction insts generalizing index scope with
  | nil => rfl
  | cons inst insts ih =>
      rw [ofInstructions, List.map_cons, List.length_cons, List.range'_succ, ih]

theorem getElem?_index {insts : List Instruction} {site : Site}
    (h : site ∈ ofInstructions 0 .global insts) :
    (ofInstructions 0 .global insts)[site.index]? = some site := by
  have hfilter := filter_of_range' (map_index 0 .global insts) site.index
  rw [← Option.mem_toList, ← hfilter]
  exact List.mem_filter.mpr ⟨h, by simp⟩

theorem mem_sources {sites : List Site} {u : Site × Excerpt} (h : u ∈ sources sites) :
    u.1 ∈ sites ∧ u.2 ∈ u.1.instruction.sources := by
  obtain ⟨site, hsite, hu⟩ := List.mem_flatMap.mp h
  obtain ⟨e, he, rfl⟩ := List.mem_map.mp hu
  exact ⟨hsite, he⟩

theorem sources_pairwise (insts : List Instruction) :
    (sources (ofInstructions 0 .global insts)).Pairwise fun u v =>
      u.1.isFrom = true → u.1.index ≠ v.1.index := by
  refine List.pairwise_flatMap.mpr ⟨fun site _ => ?_, ?_⟩
  · by_cases hfrom : site.instruction.isKind .FROM = true
    · rw [Instruction.sources, if_pos hfrom]
      cases site.instruction.positional.head? with
      | none => exact .nil
      | some image => exact List.pairwise_singleton _ _
    · refine List.pairwise_map.mpr (List.pairwise_of_forall fun _ _ hsite => ?_)
      exact absurd hsite hfrom
  · have hnodup : ((ofInstructions 0 .global insts).map Site.index).Nodup := by
      rw [map_index]
      exact List.nodup_range'
    refine (List.pairwise_map.mp hnodup).imp ?_
    intro site other hne u hu v hv _
    obtain ⟨_, -, rfl⟩ := List.mem_map.mp hu
    obtain ⟨_, -, rfl⟩ := List.mem_map.mp hv
    exact hne

end Site

namespace Stage

theorem index_lt {insts : List Instruction} {s : Stage}
    (h : s ∈ ofSites (Site.ofInstructions 0 .global insts)) :
    s.index < (ofSites (Site.ofInstructions 0 .global insts)).length := by
  have hin := List.mem_map_of_mem (f := Stage.index) h
  rw [map_index, List.mem_range'_1] at hin
  simpa [Scope.next, Scope.stageIndex] using hin

theorem exists_image {sites : List Site} {site : Site} (h : site ∈ sites)
    (hfrom : site.isFrom = true) :
    ∃ s ∈ ofSites sites, s.image = site.instruction.positional.head?.map Argument.content := by
  induction sites with
  | nil => cases h
  | cons other sites ih =>
      rw [ofSites]
      rcases List.mem_cons.mp h with rfl | h
      · rw [if_pos hfrom]
        exact ⟨_, List.mem_cons_self, rfl⟩
      · obtain ⟨s, hs, himage⟩ := ih h
        split
        · exact ⟨s, List.mem_cons_of_mem _ hs, himage⟩
        · exact ⟨s, hs, himage⟩

end Stage

namespace ScopeTable

variable {insts : List Instruction} {new : Text}

theorem IsFreshStageName.not_source (h : (ofInstructions insts).IsFreshStageName new)
    {u : Site × Excerpt} (hu : u ∈ Site.sources (Site.ofInstructions 0 .global insts)) :
    Text.sameIgnoringCase u.2.text new = false := by
  obtain ⟨hsite, hsource⟩ := Site.mem_sources hu
  by_cases hfrom : u.1.isFrom = true
  · obtain ⟨s, hs, himage⟩ := Stage.exists_image hsite hfrom
    refine h.images s hs u.2 ?_
    have hkind : u.1.instruction.isKind .FROM = true := hfrom
    rw [Instruction.sources, if_pos hkind] at hsource
    obtain ⟨image, hhead, hu⟩ := List.mem_map.mp hsource
    rw [himage, Option.mem_toList.mp hhead, ← hu]
    rfl
  · refine h.sources ⟨u.2.text, u.2.span, u.1.index,
      Stage.target? (ofInstructions insts).stages u.1 u.2.text⟩ ?_
    rw [stageReferences_eq]
    refine List.mem_filterMap.mpr ⟨u, hu, ?_⟩
    rw [StageReference.ofSource?, if_neg (by simp [hfrom])]

end ScopeTable

/-! ## References -/

theorem forall₂_iff_forall {α β : Type} {R S : α → β → Prop} {p : α → Prop} {xs : List α}
    {ys : List β} (h : List.Forall₂ R xs ys) (hp : ∀ x y, R x y → (S x y ↔ p x)) :
    List.Forall₂ S xs ys ↔ ∀ x ∈ xs, p x := by
  induction h with
  | nil => simp
  | cons hxy _ ih => rw [List.forall₂_cons, List.forall_mem_cons, ih, hp _ _ hxy]

/-- Where what one list leaves out is not found later in the other, both leave out the same. -/
theorem filterMap_cons_eq_iff {α β γ : Type} {f : α → Option γ} {g : β → Option γ} {x : α} {y : β}
    {xs : List α} {ys : List β} (hx : g y = none → ∀ a, f x = some a → a ∉ ys.filterMap g)
    (hy : f x = none → ∀ a, g y = some a → a ∉ xs.filterMap f) :
    (x :: xs).filterMap f = (y :: ys).filterMap g ↔
      f x = g y ∧ xs.filterMap f = ys.filterMap g := by
  cases hf : f x with
  | none =>
      rw [List.filterMap_cons_none hf]
      cases hg : g y with
      | none => rw [List.filterMap_cons_none hg, and_iff_right rfl]
      | some a =>
          rw [List.filterMap_cons_some hg]
          refine iff_of_false (fun heq => hy hf a hg ?_) (by simp)
          rw [heq]
          exact List.mem_cons_self
  | some a =>
      rw [List.filterMap_cons_some hf]
      cases hg : g y with
      | none =>
          rw [List.filterMap_cons_none hg]
          refine iff_of_false (fun heq => hx hg a hf ?_) (by simp)
          rw [← heq]
          exact List.mem_cons_self
      | some b => rw [List.filterMap_cons_some hg, List.cons.injEq, Option.some.injEq]

namespace StageReference

def row? (stages : List Stage) (u : Site × Excerpt) : Option (Nat × Option Nat) :=
  (ofSource? stages u.1 u.2).map fun r => (r.instruction, r.stage)

theorem row?_eq (stages : List Stage) (u : Site × Excerpt) :
    row? stages u = if u.1.isFrom && (Stage.target? stages u.1 u.2.text).isNone then none
      else some (u.1.index, Stage.target? stages u.1 u.2.text) := by
  unfold row? ofSource?
  split <;> rfl

theorem isFrom_of_row? {stages : List Stage} {u : Site × Excerpt} (h : row? stages u = none) :
    u.1.isFrom = true := by
  rw [row?_eq] at h
  split at h
  · rename_i hnone
    exact (Bool.and_eq_true_iff.mp hnone).1
  · cases h

theorem fst_of_row? {stages : List Stage} {u : Site × Excerpt} {x : Nat × Option Nat}
    (h : row? stages u = some x) : x.1 = u.1.index := by
  rw [row?_eq] at h
  split at h
  · cases h
  · exact congrArg Prod.fst (Option.some.inj h).symm

theorem exists_of_mem_rows {stages : List Stage} {us : List (Site × Excerpt)} {x : Nat × Option Nat}
    (h : x ∈ us.filterMap (row? stages)) : ∃ u ∈ us, u.1.index = x.1 := by
  obtain ⟨u, hu, hrow⟩ := List.mem_filterMap.mp h
  exact ⟨u, hu, (fst_of_row? hrow).symm⟩

/-- The references are the same if all sources stand for the same stages: the source of a `FROM` is
the only one of its instruction, and cannot be left out unnoticed. -/
theorem rows_eq_iff {stages stages' : List Stage} {us us' : List (Site × Excerpt)}
    (h : List.Forall₂ (fun u u' => u'.1.index = u.1.index ∧ u'.1.isFrom = u.1.isFrom) us us')
    (hfrom : us.Pairwise fun u v => u.1.isFrom = true → u.1.index ≠ v.1.index) :
    us.filterMap (row? stages) = us'.filterMap (row? stages') ↔
      List.Forall₂ (fun u u' => Stage.target? stages' u'.1 u'.2.text =
        Stage.target? stages u.1 u.2.text) us us' := by
  induction h with
  | nil => exact iff_of_true rfl .nil
  | @cons u u' us us' hu hus ih =>
      obtain ⟨hfirst, hrest⟩ := List.pairwise_cons.mp hfrom
      have hrow : row? stages u = row? stages' u' ↔ Stage.target? stages' u'.1 u'.2.text =
          Stage.target? stages u.1 u.2.text := by
        rw [row?_eq, row?_eq, hu.1, hu.2]
        cases u.1.isFrom <;> cases Stage.target? stages u.1 u.2.text <;>
          cases Stage.target? stages' u'.1 u'.2.text <;> simp [eq_comm]
      rw [List.forall₂_cons, ← ih hrest, ← hrow]
      refine filterMap_cons_eq_iff (fun hnone x hx hin => ?_) fun hnone x hx hin => ?_
      · obtain ⟨v', hv', hindex⟩ := exists_of_mem_rows hin
        obtain ⟨v, hv, hsame, -⟩ := exists_of_forall₂ hus hv'
        refine hfirst v hv ?_ ?_
        · rw [← hu.2]
          exact isFrom_of_row? hnone
        · rw [← hsame, hindex, fst_of_row? hx]
      · obtain ⟨v, hv, hindex⟩ := exists_of_mem_rows hin
        exact hfirst v hv (isFrom_of_row? hnone) (by rw [hindex, fst_of_row? hx, hu.1])

end StageReference

namespace ScopeTable

variable {insts : List Instruction}

theorem stageReferences_rows (insts : List Instruction) :
    (ofInstructions insts).stageReferences.map (fun r => (r.instruction, r.stage)) =
      (Site.sources (ofInstructions insts).sites).filterMap
        (StageReference.row? (ofInstructions insts).stages) := by
  rw [stageReferences_eq, List.map_filterMap]
  rfl

theorem forall_stageReferences {p : Bool → Text → Prop} {index : Nat} :
    (∀ u ∈ Site.sources (ofInstructions insts).sites,
        Stage.target? (ofInstructions insts).stages u.1 u.2.text = some index →
          p u.1.isFrom u.2.text) ↔
      ∀ r ∈ (ofInstructions insts).stageReferences, r.stage = some index →
        p ((ofInstructions insts).sites[r.instruction]?.any Site.isFrom) r.name := by
  have hsite {u : Site × Excerpt} (hu : u ∈ Site.sources (ofInstructions insts).sites) :
      (ofInstructions insts).sites[u.1.index]?.any Site.isFrom = u.1.isFrom := by
    rw [show (ofInstructions insts).sites[u.1.index]? = some u.1 from
      Site.getElem?_index (Site.mem_sources hu).1, Option.any_some]
  rw [stageReferences_eq]
  constructor
  · intro hall r hr hstage
    obtain ⟨u, hu, hr⟩ := List.mem_filterMap.mp hr
    unfold StageReference.ofSource? at hr
    split at hr
    · cases hr
    · obtain rfl := Option.some.inj hr
      rw [hsite hu]
      exact hall u hu hstage
  · intro hall u hu htarget
    have hr := hall ⟨u.2.text, u.2.span, u.1.index, some index⟩
      (List.mem_filterMap.mpr ⟨u, hu, by simp [StageReference.ofSource?, htarget]⟩) rfl
    rw [hsite hu] at hr
    exact hr

end ScopeTable

/-! ## Renaming -/

namespace File

variable {text new : Text} {index : Nat} {names : List (List Placed)}

theorem escape_of_stageName (text : Text) : isStageNameChar (parse text).escape = false ∧
    ∀ c ∈ "--from=".toList, Argument.Word.isPlain (parse text).escape c = true := by
  rw [← List.all_eq_true]
  rcases escapeUnder_eq (parse text).directives with h | h <;> rw [escape, h] <;> decide

section Selected

variable {isSelected : StageMention → Bool}
  (hselected : Selected StageMention.chars isSelected (stageMentions text) names)
  (hnew : isValidStageName new = true)

include hselected hnew

theorem stageNames_spellable : Spellable (parse text).escape names new := by
  obtain ⟨hescape, hmark⟩ := escape_of_stageName text
  have hplain := plain_of_isValidStageName hnew hescape
  refine ⟨?_, ?_, ?_, ?_⟩
  · rintro rfl
    cases hnew
  · intro c hc
    have hword := (hplain c hc).2
    simp only [Argument.Word.isPlain, Bool.and_eq_true, bne_iff_ne] at hword
    exact ⟨(hplain c hc).1, hword.2⟩
  · exact fun c hc => (head_of_isValidStageName hnew c hc).1
  · rintro p ⟨name, hname, hhead⟩
    obtain ⟨m, hm, -, rfl⟩ := (hselected.mem name).mp hname
    obtain ⟨inst, hinst, hin⟩ := (stages_mentioned text).exists_instruction hm
    have hblank := Instruction.isBlank_of_mem_stageMentions hin
      (by rw [escape_of_mem hinst]; exact hmark) hhead
    have hregion := (Instruction.infix_of_mem_stageMentions hin).2.mem (List.mem_of_head? hhead)
    have hbreak := not_break_of_mem (mem_logicalLines hinst) (List.mem_append_right _ hregion)
    rw [Body.endsWord, hblank, hbreak, Bool.or_false]

/-- The new name can be written for the mentions of a stage in an instruction. -/
theorem stageNames_of_selected {inst : Instruction} (hinst : inst ∈ (parse text).instructions) :
    StageNames names new inst where
  spellable := by
    rw [escape_of_mem hinst]
    exact stageNames_spellable hselected hnew
  plain := by
    obtain ⟨hescape, hmark⟩ := escape_of_stageName text
    rw [escape_of_mem hinst]
    intro c hc
    rcases List.mem_append.mp hc with hc | hc
    · exact (plain_of_isValidStageName hnew hescape c hc).2
    · exact hmark c hc
  undashed c hc := (head_of_isValidStageName hnew c hc).2
  unique := by
    intro a ha b hb hsame
    obtain ⟨m, hm, -, rfl⟩ := (hselected.mem a).mp ha
    obtain ⟨n, hn, -, rfl⟩ := (hselected.mem b).mp hb
    have hp := List.head?_eq_some_head (hselected.nonempty m hm)
    rw [eq_of_apart hselected.apart hm hn (List.mem_of_head? hp)
      (List.mem_of_head? (hsame ▸ hp))]
  nodup := region_nodup hinst
  mentioned _ hq hbegins := (stages_mentioned text).exists_of_begins hselected hinst hq hbegins

end Selected

section Stage

variable (hselected : Selected StageMention.chars
  (StageMention.isOf (ScopeTable.ofFile (parse text)).stages index) (stageMentions text) names)

include hselected

theorem stageName_respelled {site : Site}
    (hin : site ∈ Site.ofInstructions 0 .global (parse text).instructions) {name : Option Excerpt}
    (hname : Option.Rel (fun e e' => Respelled InOnePiece names new e.chars e'.chars)
      site.instruction.stageName? name) :
    name.map Excerpt.text =
      if site.scope.stageIndex = index then site.instruction.stageName?.map fun _ => new
      else site.instruction.stageName?.map Excerpt.text := by
  generalize hown : site.instruction.stageName? = own at hname
  cases hname with
  | none => split <;> rfl
  | @some e e' hchars =>
      have hd : (site, e) ∈ Site.stageNames (Site.ofInstructions 0 .global (parse text).instructions) :=
        List.mem_flatMap.mpr ⟨site, hin, by simp [hown]⟩
      have hmention : StageMention.name site e ∈ stageMentions text :=
        List.mem_append_left _ (List.mem_map.mpr ⟨_, hd, rfl⟩)
      have htext : e'.text = _ := hselected.text_of_respelled hmention hchars
      rw [Option.map_some, htext]
      simp only [StageMention.isOf, beq_iff_eq]
      split <;> rfl

theorem stages_respelled (hm : Mentions text names) (hnew : isValidStageName new = true) :
    List.Forall₂ (Stage.Renamed index new) (ScopeTable.ofFile (parse text)).stages
        (ScopeTable.ofFile (parse (TextEdit.applyAll text
          (TextEdit.respell text names new)))).stages ∧
      List.Forall₂ (fun u u' => u'.1.index = u.1.index ∧ u'.1.scope = u.1.scope ∧
          u'.1.isFrom = u.1.isFrom ∧
          u'.2.text = if StageMention.isOf (ScopeTable.ofFile (parse text)).stages index (.source u.1 u.2)
            then new else u.2.text)
        (Site.sources (ScopeTable.ofFile (parse text)).sites)
        (Site.sources (ScopeTable.ofFile (parse (TextEdit.applyAll text
          (TextEdit.respell text names new)))).sites) := by
  have hinsts := instructions_respelled hm (stageNames_spellable hselected hnew)
  have hsites := forall₂_mem (Site.ofInstructions_respelled hinsts 0 .global)
  have hnames {site : Site} (hsite : site ∈ Site.ofInstructions 0 .global (parse text).instructions) :=
    stageNames_of_selected hselected hnew (Site.instruction_mem hsite)
  constructor
  · have hfrom := List.rel_filter (p := Site.isFrom) (q := Site.isFrom)
      (fun _ _ h => Bool.eq_iff_iff.mp (h.2.2.instruction.isKind .FROM).symm) hsites
    have hpairs := forall₂_map (f := fun site : Site =>
        (site.scope.stageIndex, site.instruction.stageName?))
      (g := fun site : Site => (site.scope.stageIndex, site.instruction.stageName?))
      (S := fun x x' => x'.1 = x.1 ∧ x'.2.map Excerpt.text =
        if x.1 = index then x.2.map fun _ => new else x.2.map Excerpt.text) hfrom ?_
    · rw [← Stage.ofSites_eq, ← Stage.ofSites_eq] at hpairs
      refine (List.forall₂_map_right_iff.mp (List.forall₂_map_left_iff.mp hpairs)).imp ?_
      exact fun s s' h => ⟨h.1, h.2⟩
    · rintro site site' ⟨hsite, -, h⟩
      exact ⟨congrArg Scope.stageIndex h.scope,
        stageName_respelled hselected hsite ((hnames hsite).stageName h.instruction)⟩
  · have hsources : List.Forall₂ (fun u u' : Site × Excerpt => Site.Respelled names new u.1 u'.1 ∧
        Respelled InOnePiece names new u.2.chars u'.2.chars)
        (Site.sources (Site.ofInstructions 0 .global (parse text).instructions))
        (Site.sources (Site.ofInstructions 0 .global (parse (TextEdit.applyAll text
          (TextEdit.respell text names new))).instructions)) := by
      refine List.rel_flatMap hsites ?_
      rintro site site' ⟨hsite, -, h⟩
      exact forall₂_map ((hnames hsite).sources h.instruction) fun _ _ he => ⟨h, he⟩
    refine (forall₂_mem hsources).imp ?_
    rintro u u' ⟨hu, -, hsite, hchars⟩
    have hmention : StageMention.source u.1 u.2 ∈ stageMentions text :=
      List.mem_append_right _ (List.mem_map.mpr ⟨_, hu, rfl⟩)
    refine ⟨hsite.index, hsite.scope, hsite.instruction.isKind .FROM, ?_⟩
    exact hselected.text_of_respelled hmention hchars

/-- The references stand for the stages they stood for if those to the renamed stage follow it, and
only then. -/
theorem stageReferences_respelled (hm : Mentions text names)
    (hnew : (ScopeTable.ofFile (parse text)).IsFreshStageName new) :
    (ScopeTable.ofFile (parse text)).stageReferences.map (fun r => (r.instruction, r.stage)) =
        (ScopeTable.ofFile (parse (TextEdit.applyAll text
          (TextEdit.respell text names new)))).stageReferences.map (fun r => (r.instruction, r.stage)) ↔
      ∀ r ∈ (ScopeTable.ofFile (parse text)).stageReferences, r.stage = some index →
        Stage.Follows (ScopeTable.ofFile (parse text)).stages
          ((ScopeTable.ofFile (parse text)).sites[r.instruction]?.any Site.isFrom) index r.name := by
  obtain ⟨hstages, hsources⟩ := stages_respelled hselected hm hnew.isValid
  rw [ScopeTable.ofFile, ScopeTable.ofFile] at *
  have hfollow := @ScopeTable.forall_stageReferences (parse text).instructions
    (fun isFrom name => Stage.Follows (ScopeTable.ofInstructions (parse text).instructions).stages
      isFrom index name) index
  rw [ScopeTable.stageReferences_rows, ScopeTable.stageReferences_rows, StageReference.rows_eq_iff
    (hsources.imp fun _ _ h => ⟨h.1, h.2.2.1⟩) (Site.sources_pairwise _), ← hfollow]
  refine forall₂_iff_forall (forall₂_mem hsources) ?_
  rintro u u' ⟨hu, -, -, hscope, hfrom, htext⟩
  rw [htext]
  exact Stage.target?_renamed hstages hfrom hscope hnew.stages
    (number?_of_isValidStageName hnew.isValid) (fun s hs => Stage.index_lt hs) (hnew.not_source hu)

end Stage

end File

end Dockerfile
