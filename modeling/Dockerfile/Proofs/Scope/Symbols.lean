import Mathlib.Data.List.Find
import Dockerfile.Proofs.Scope.Gaps
import Dockerfile.Proofs.Scope.Visibility

/-!
# Symbols and their occurrences

A cursor is looked up in four tables one after the other. Together they are a search through the
mentions of variables and then through those of stages (`ScopeTable.symbolAt?_eq_mentioned`). As
there are gaps between mentions, a cursor touches one of each at most, and the occurrences of a symbol
are a group that can be edited as a whole: each of them leads back to the symbol
(`ScopeTable.symbol_isGroup`).
-/

namespace Dockerfile

/-! ## Stretches that a cursor touches -/

section Touched

variable {α : Type} {f : α → List Placed} {items : List α}
  (h : items.Pairwise fun a b => Detached (f a) (f b)) (hne : ∀ a ∈ items, f a ≠ [])

include h hne

theorem eq_of_touched {a b : α} (ha : a ∈ items) (hb : b ∈ items) {offset : Nat}
    (htouched : (Placed.reach (f a)).contains offset = true)
    (htouched' : (Placed.reach (f b)).contains offset = true) : a = b := by
  by_contra hab
  simp only [Span.contains, Bool.and_eq_true, decide_eq_true_eq] at htouched htouched'
  rcases separation_detached.of_ne h ha hb hab with hfront | hfront
  · have := hfront.stop_lt_start (hne a ha) (hne b hb)
    omega
  · have := hfront.stop_lt_start (hne b hb) (hne a ha)
    omega

theorem find?_touched {a : α} (ha : a ∈ items) {offset : Nat}
    (htouched : (Placed.reach (f a)).contains offset = true) :
    (items.find? fun b => (Placed.reach (f b)).contains offset) = some a := by
  cases hfind : items.find? fun b => (Placed.reach (f b)).contains offset with
  | none => exact absurd htouched (List.find?_eq_none.mp hfind a ha)
  | some b =>
      have hfound := List.find?_some hfind
      rw [eq_of_touched h hne ha (List.mem_of_find?_eq_some hfind) htouched hfound]

/-- Sorted, the places of detached items follow one another. -/
theorem sortByStart_separated (isSelected isDeclaration : α → Bool) :
    (ScopeTable.sortByStart ((items.filter isSelected).map fun a =>
      ⟨Placed.reach (f a), isDeclaration a⟩)).Pairwise fun a b => a.span.stop < b.span.start := by
  let occurrences : List Occurrence := (items.filter isSelected).map fun a =>
    ⟨Placed.reach (f a), isDeclaration a⟩
  have hproper : ∀ o ∈ occurrences, o.span.start ≤ o.span.stop := by
    intro o ho
    obtain ⟨a, -, rfl⟩ := List.mem_map.mp ho
    exact Nat.le_max_right _ _
  have hdetached : occurrences.Pairwise fun a b =>
      a.span.stop < b.span.start ∨ b.span.stop < a.span.start := by
    refine List.pairwise_map.mpr ((h.sublist List.filter_sublist).imp_of_mem ?_)
    intro a b ha hb hab
    have ha := hne a (List.mem_filter.mp ha).1
    have hb := hne b (List.mem_filter.mp hb).1
    exact hab.imp (fun h => h.stop_lt_start ha hb) (fun h => h.stop_lt_start hb ha)
  -- That two places are apart does not depend on their order, so sorting keeps it.
  have hperm := List.mergeSort_perm occurrences fun a b => a.span.start ≤ b.span.start
  have hsorted := @List.pairwise_mergeSort _ (fun a b : Occurrence => a.span.start ≤ b.span.start)
    (by simp only [decide_eq_true_eq]; omega)
    (by simp only [Bool.or_eq_true, decide_eq_true_eq]; omega) occurrences
  refine (hsorted.and ((hperm.pairwise_iff fun h => Or.symm h).mpr hdetached)).imp_of_mem ?_
  rintro a b - hb ⟨hle, hab⟩
  have := hproper b (hperm.mem_iff.mp hb)
  simp only [decide_eq_true_eq] at hle
  omega

end Touched

/-! ## One table for the four -/

/-- A place that a cursor may touch, and the symbol there. -/
structure NamedPlace where
  span : Span
  symbol : Option Symbol

namespace ScopeTable

def places (table : ScopeTable) : List NamedPlace :=
  ((table.bindings.map fun b => ⟨b.nameSpan, some (.var b.name b.scope)⟩) ++
    (table.references.map fun r => ⟨r.span, some (.var r.name (table.symbolScope r))⟩)) ++
  ((table.stages.filterMap fun s => s.name.map fun n => ⟨n.span, some (.stage s.index)⟩) ++
    table.stageReferences.map fun r => ⟨r.span, r.stage.map .stage⟩)

/-- The symbol under a cursor is that of the first place that it touches. -/
theorem symbolAt?_eq (table : ScopeTable) (offset : Nat) :
    table.symbolAt? offset = (table.places.find? fun place => place.span.contains offset).bind
      fun place => place.symbol.map fun symbol => (symbol, place.span) := by
  have hbinding : (table.bindings.find? fun b => b.nameSpan.contains offset) =
      (table.bindingAt? offset).map Prod.snd := by
    have hfst : table.bindings = table.bindings.zipIdx.map Prod.fst := by
      rw [List.zipIdx_map_fst]
    conv_lhs => rw [hfst, List.find?_map]
    rw [bindingAt?, Option.map_map]
    rfl
  unfold places symbolAt?
  simp only [List.find?_append, List.find?_map, List.find?_filterMap, Function.comp_def, hbinding,
    Option.any_map]
  cases table.bindingAt? offset with
  | some b => rfl
  | none =>
      rw [referenceAt?]
      cases table.references.find? fun r => r.span.contains offset with
      | some r => rfl
      | none =>
          cases hstage : table.stages.find? fun s => s.name.any fun n => n.span.contains offset with
          | some s =>
              have hname := List.find?_some hstage
              obtain ⟨n, hn, -⟩ := (Option.any_eq_true _ _).mp hname
              simp [hn]
          | none =>
              cases table.stageReferences.find? fun r => r.span.contains offset with
              | none => rfl
              | some r => cases hindex : r.stage <;> simp [hindex]

end ScopeTable

/-! ## Symbols that are mentioned -/

def Mention.symbol (bindings : List Binding) : Mention → Symbol
  | declaration site p => .var p.name.text site.scope
  | use site s => .var (Placed.text s.name) (Binding.scopeFound bindings (Placed.text s.name)
      site.index site.scope (site.instruction.effective.isKind .FROM))

theorem Mention.isOf_iff {bindings : List Binding} {name : Text} {scope : Scope} {m : Mention} :
    m.isOf bindings name scope = true ↔ m.symbol bindings = .var name scope := by
  cases m <;> simp [isOf, symbol]

namespace StageMention

variable {stages : List Stage} {v : StageMention}

def index? (stages : List Stage) : StageMention → Option Nat
  | name site _ => some site.scope.stageIndex
  | source site e => Stage.target? stages site e.text

def isRecorded (stages : List Stage) : StageMention → Bool
  | name _ _ => true
  | source site e => !(site.isFrom && (Stage.target? stages site e.text).isNone)

theorem isRecorded_of_index? {index : Nat} (h : v.index? stages = some index) :
    v.isRecorded stages = true := by
  cases v with
  | name site e => rfl
  | source site e =>
      have htarget : Stage.target? stages site e.text = some index := h
      simp [isRecorded, htarget]

theorem index?_of_isOf {index : Nat} (h : v.isOf stages index = true) :
    v.index? stages = some index := by
  cases v with
  | name site e => exact congrArg some (eq_of_beq h)
  | source site e => exact eq_of_beq (Bool.and_eq_true_iff.mp h).1

end StageMention

namespace ScopeTable

variable (insts : List Instruction)

theorem stageName_places :
    ((ofInstructions insts).stages.filterMap fun s =>
        s.name.map fun n => (⟨n.span, some (.stage s.index)⟩ : NamedPlace)) =
      (((Site.stageNames (Site.ofInstructions 0 .global insts)).map
        fun d => StageMention.name d.1 d.2).filter
          (StageMention.isRecorded (ofInstructions insts).stages)).map fun v =>
            ⟨Placed.reach v.chars, (v.index? (ofInstructions insts).stages).map .stage⟩ := by
  let place (n : Nat × Option Excerpt) : Option NamedPlace :=
    n.2.map fun e => ⟨e.span, some (.stage n.1)⟩
  have hplaces : (ofInstructions insts).stages.filterMap (fun s =>
      s.name.map fun n => (⟨n.span, some (.stage s.index)⟩ : NamedPlace)) =
        ((Stage.ofSites (Site.ofInstructions 0 .global insts)).map fun s =>
          (s.index, s.name)).filterMap place := by
    rw [List.filterMap_map]
    rfl
  have hnames : (Site.stageNames (Site.ofInstructions 0 .global insts)).map (fun d =>
      (⟨Placed.reach d.2.chars, some (.stage d.1.scope.stageIndex)⟩ : NamedPlace)) =
        (Site.stageNames (Site.ofInstructions 0 .global insts)).map fun d =>
          ⟨d.2.span, some (.stage d.1.scope.stageIndex)⟩ := by
    refine List.map_congr_left fun d hd => ?_
    rw [Excerpt.span_eq_reach
      (Instruction.infix_of_mem_stageMentions (mem_stageMentions_of_stageNames hd)).1]
  rw [hplaces, Stage.ofSites_eq, List.filterMap_map, List.filterMap_filter,
    List.filterMap_eq_flatMap_toList, List.filter_eq_self.mpr, List.map_map]
  · refine Eq.trans ?_ hnames.symm
    rw [Site.stageNames, List.map_flatMap]
    congr 1
    funext site
    by_cases hfrom : site.isFrom = true
    · cases hname : site.instruction.stageName? <;> simp [hfrom, hname, place]
    · have hname : site.instruction.stageName? = none := if_neg hfrom
      simp [hfrom, hname]
  · intro v hv
    obtain ⟨d, -, rfl⟩ := List.mem_map.mp hv
    rfl

theorem places_eq :
    (ofInstructions insts).places =
      ((Site.mentions (Site.ofInstructions 0 .global insts)).map fun m =>
        ⟨Placed.reach m.chars, some (m.symbol (ofInstructions insts).bindings)⟩) ++
      (((Site.stageMentions (Site.ofInstructions 0 .global insts)).filter
        (StageMention.isRecorded (ofInstructions insts).stages)).map fun v =>
          ⟨Placed.reach v.chars, (v.index? (ofInstructions insts).stages).map .stage⟩) := by
  rw [places, Site.mentions, Site.stageMentions, List.filter_append, List.map_append,
    List.map_append, List.map_map, List.map_map]
  congr 2
  · rw [bindings_eq, List.map_map]
    refine List.map_congr_left fun d hd => ?_
    have hdeclared := (Site.mem_declarations.mp hd).2
    exact congrArg (NamedPlace.mk · _)
      (Excerpt.span_eq_reach (Instruction.mem_properties_of_mem_declared hdeclared).2.1)
  · rw [references_eq, List.map_map]
    refine List.map_congr_left fun u _ => ?_
    have hscope := symbolScope_eq (ofInstructions insts)
      (VariableReference.ofUse (ofInstructions insts).bindings u.1 u.2) rfl
    simp only [Function.comp_apply, hscope]
    rfl
  · exact stageName_places insts
  · rw [stageReferences_eq, List.map_filterMap, List.filter_map, List.map_map]
    refine filterMap_eq_map_filter fun u hu => ?_
    have hspan := Excerpt.span_eq_reach
      (Instruction.infix_of_mem_stageMentions (mem_stageMentions_of_sources hu)).1
    simp only [Function.comp_apply, StageReference.ofSource?, StageMention.isRecorded,
      StageMention.chars, StageMention.index?]
    by_cases hnone : (u.1.isFrom &&
        (Stage.target? (ofInstructions insts).stages u.1 u.2.text).isNone) = true
    · simp [hnone]
    · simp [hnone, hspan]

end ScopeTable

/-! ## Groups of occurrences -/

theorem Placed.reach_contains_start (chars : List Placed) :
    (reach chars).contains (reach chars).start = true := by
  have hle : (reach chars).start ≤ (reach chars).stop := Nat.le_max_right _ _
  simpa [Span.contains] using hle

namespace ScopeTable

variable {text : Text} {offset : Nat} {symbol : Symbol} {span : Span}

/-- The occurrences of the symbol at an offset, where it is written in `span`, are a group. -/
structure IsGroup (table : ScopeTable) (offset : Nat) (symbol : Symbol) (span : Span) : Prop where
  touched : span.contains offset = true
  /-- They follow one another with gaps. -/
  separated : (table.occurrences symbol).Pairwise fun a b => a.span.stop < b.span.start
  /-- The place is one of them, unless a stage is given by its number there. -/
  listed : (∃ o ∈ table.occurrences symbol, o.span = span) ∨
    ∃ r ∈ table.stageReferences, r.span = span ∧ r.stage.map .stage = some symbol ∧
      r.name.all Char.isDigit = true
  /-- Each of them leads back to the symbol. -/
  found : ∀ o ∈ table.occurrences symbol, table.symbolAt? o.span.start = some (symbol, o.span)
  /-- The definition is one of them. -/
  defined : ∀ d ∈ table.definitionAt? offset, ⟨d, true⟩ ∈ table.occurrences symbol

theorem symbolAt?_eq_mentioned (text : Text) (offset : Nat) :
    (ofFile (File.parse text)).symbolAt? offset =
      match (File.mentions text).find? fun m => (Placed.reach m.chars).contains offset with
      | some m => some (m.symbol (ofFile (File.parse text)).bindings, Placed.reach m.chars)
      | none => (((File.stageMentions text).filter
          (StageMention.isRecorded (ofFile (File.parse text)).stages)).find? fun v =>
            (Placed.reach v.chars).contains offset).bind fun v =>
              (v.index? (ofFile (File.parse text)).stages).map fun index =>
                (.stage index, Placed.reach v.chars) := by
  rw [symbolAt?_eq, ofFile, places_eq]
  simp only [List.find?_append, List.find?_map, Function.comp_def]
  show (Option.or (Option.map _ ((File.mentions text).find? _))
    (Option.map _ (((File.stageMentions text).filter _).find? _))).bind _ = _
  cases (File.mentions text).find? fun m => (Placed.reach m.chars).contains offset with
  | some m => rfl
  | none =>
      rw [Option.map_none, Option.none_or, Option.bind_map]
      simp only [Function.comp_def, Option.map_map]

theorem symbolAt?_of_mention {m : Mention} (hm : m ∈ File.mentions text)
    (htouched : (Placed.reach m.chars).contains offset = true) :
    (ofFile (File.parse text)).symbolAt? offset =
      some (m.symbol (ofFile (File.parse text)).bindings, Placed.reach m.chars) := by
  rw [symbolAt?_eq_mentioned, find?_touched (File.mentions_detached text)
    (fun _ => (File.mentioned text).nonempty) hm htouched]

/-- At its start the name of a stage is not taken for a variable. -/
theorem symbolAt?_of_stageMention {v : StageMention} (hv : v ∈ File.stageMentions text) {index : Nat}
    (hindex : v.index? (ofFile (File.parse text)).stages = some index) :
    (ofFile (File.parse text)).symbolAt? (Placed.reach v.chars).start =
      some (.stage index, Placed.reach v.chars) := by
  have hnone : (File.mentions text).find? (fun m =>
      (Placed.reach m.chars).contains (Placed.reach v.chars).start) = none := by
    refine List.find?_eq_none.mpr fun m hm => ?_
    have hclear := File.stage_start_clear hm hv
    simp only [Span.contains, Bool.and_eq_true, decide_eq_true_eq]
    omega
  have hrecorded : v ∈ (File.stageMentions text).filter
      (StageMention.isRecorded (ofFile (File.parse text)).stages) :=
    List.mem_filter.mpr ⟨hv, StageMention.isRecorded_of_index? hindex⟩
  have hfind := find?_touched ((File.stageMentions_detached text).sublist List.filter_sublist)
    (fun a ha => (File.stages_mentioned text).nonempty (List.mem_filter.mp ha).1) hrecorded
    (Placed.reach_contains_start v.chars)
  simp only [symbolAt?_eq_mentioned, hnone, hfind, Option.bind_some, hindex, Option.map_some]

theorem exists_mention_of_mem {name : Text} {scope : Scope} {o : Occurrence}
    (h : o ∈ (ofFile (File.parse text)).occurrences (.var name scope)) :
    ∃ m ∈ File.mentions text, m.symbol (ofFile (File.parse text)).bindings = .var name scope ∧
      o.span = Placed.reach m.chars := by
  rw [ofFile, occurrences_var, sortByStart, List.mem_mergeSort] at h
  obtain ⟨m, hm, rfl⟩ := List.mem_map.mp h
  obtain ⟨hm, hof⟩ := List.mem_filter.mp hm
  exact ⟨m, hm, Mention.isOf_iff.mp hof, rfl⟩

theorem exists_stageMention_of_mem {index : Nat} {o : Occurrence}
    (h : o ∈ (ofFile (File.parse text)).occurrences (.stage index)) :
    ∃ v ∈ File.stageMentions text, v.index? (ofFile (File.parse text)).stages = some index ∧
      o.span = Placed.reach v.chars := by
  rw [ofFile, occurrences_stage, sortByStart, List.mem_mergeSort] at h
  obtain ⟨v, hv, rfl⟩ := List.mem_map.mp h
  obtain ⟨hv, hof⟩ := List.mem_filter.mp hv
  exact ⟨v, hv, StageMention.index?_of_isOf hof, rfl⟩

theorem exists_of_symbolAt? (h : (ofFile (File.parse text)).symbolAt? offset = some (symbol, span)) :
    span.contains offset = true ∧
      ((∃ m ∈ File.mentions text, m.symbol (ofFile (File.parse text)).bindings = symbol ∧
          Placed.reach m.chars = span) ∨
        ∃ v ∈ File.stageMentions text, Placed.reach v.chars = span ∧ ∃ index,
          v.index? (ofFile (File.parse text)).stages = some index ∧ symbol = .stage index) := by
  rw [symbolAt?_eq_mentioned] at h
  split at h
  · rename_i m hfind
    obtain ⟨rfl, rfl⟩ := Prod.mk.inj (Option.some.inj h)
    have htouched := List.find?_some hfind
    exact ⟨htouched, .inl ⟨m, List.mem_of_find?_eq_some hfind, rfl, rfl⟩⟩
  · obtain ⟨v, hfind, hv⟩ := Option.bind_eq_some_iff.mp h
    obtain ⟨index, hindex, hsame⟩ := Option.map_eq_some_iff.mp hv
    obtain ⟨rfl, rfl⟩ := Prod.mk.inj hsame
    have htouched := List.find?_some hfind
    have hmem := (List.mem_filter.mp (List.mem_of_find?_eq_some hfind)).1
    exact ⟨htouched, .inr ⟨v, hmem, rfl, index, hindex, rfl⟩⟩

/-- A reference has the name of its declaration, and is known under its scope. -/
theorem mem_of_bindingOf? {r : VariableReference}
    (hr : r ∈ (ofFile (File.parse text)).references) {b : Binding}
    (hb : (ofFile (File.parse text)).bindingOf? r = some b) :
    b ∈ (ofFile (File.parse text)).bindings ∧ b.name = r.name ∧
      b.scope = (ofFile (File.parse text)).symbolScope r := by
  have hscope : (ofFile (File.parse text)).symbolScope r = b.scope := by
    rw [symbolScope]
    split
    · rename_i other hother
      rw [Option.some.inj (hother.symm.trans hb)]
    · rename_i hnone
      exact nomatch hnone.symm.trans hb
  obtain ⟨index, hindex, hget⟩ := Option.bind_eq_some_iff.mp hb
  rw [ofFile, references_eq] at hr
  obtain ⟨⟨site, s⟩, -, rfl⟩ := List.mem_map.mp hr
  obtain ⟨found, hfound, hname⟩ := Binding.exists_of_resolve? hindex
  obtain rfl := Option.some.inj (hget.symm.trans hfound)
  exact ⟨List.mem_of_getElem? hget, hname, hscope.symm⟩

/-- The declaration that a cursor leads to is an occurrence of the symbol there. -/
theorem mem_occurrences_of_definitionAt? {d : Span}
    (h : (ofFile (File.parse text)).symbolAt? offset = some (symbol, span))
    (hd : (ofFile (File.parse text)).definitionAt? offset = some d) :
    ⟨d, true⟩ ∈ (ofFile (File.parse text)).occurrences symbol := by
  unfold definitionAt? at hd
  cases hbinding : (ofFile (File.parse text)).bindingAt? offset with
  | some found =>
      rw [hbinding] at hd
      rw [symbolAt?, hbinding] at h
      obtain ⟨rfl, -⟩ := Prod.mk.inj (Option.some.inj h)
      obtain rfl := Option.some.inj hd
      obtain ⟨b, hfind, rfl⟩ := Option.map_eq_some_iff.mp hbinding
      have hmem := List.fst_mem_of_mem_zipIdx (List.mem_of_find?_eq_some hfind)
      exact (File.mem_occurrences_binding hmem _ _).mpr ⟨rfl, rfl⟩
  | none =>
      rw [hbinding] at hd
      cases hreference : (ofFile (File.parse text)).referenceAt? offset with
      | some r =>
          rw [hreference] at hd
          rw [symbolAt?, hbinding, hreference] at h
          obtain ⟨rfl, -⟩ := Prod.mk.inj (Option.some.inj h)
          have hr := List.mem_of_find?_eq_some hreference
          obtain ⟨b, hb, rfl⟩ : ∃ b, (ofFile (File.parse text)).bindingOf? r = some b ∧
              b.nameSpan = d := by
            rw [bindingOf?]
            cases hindex : r.binding with
            | none => simp [hindex] at hd
            | some index => simpa [hindex, Option.bind_eq_some_iff] using hd
          obtain ⟨hmem, hname, hscope⟩ := mem_of_bindingOf? hr hb
          exact (File.mem_occurrences_binding hmem _ _).mpr ⟨hname, hscope⟩
      | none =>
          rw [hreference, h] at hd
          cases symbol with
          | var name scope => cases hd
          | stage index =>
              rw [occurrences, sortByStart, List.mem_mergeSort]
              refine List.mem_append_left _ (List.mem_map.mpr ⟨d, ?_, rfl⟩)
              exact Option.mem_toList.mpr hd

/-- The place of a stage is an occurrence of it, unless it is a number. -/
theorem listed_of_stageMention {v : StageMention} (hv : v ∈ File.stageMentions text) {index : Nat}
    (hindex : v.index? (ofFile (File.parse text)).stages = some index) :
    (∃ o ∈ (ofFile (File.parse text)).occurrences (.stage index), o.span = Placed.reach v.chars) ∨
      ∃ r ∈ (ofFile (File.parse text)).stageReferences, r.span = Placed.reach v.chars ∧
        r.stage = some index ∧ r.name.all Char.isDigit = true := by
  by_cases hof : v.isOf (ofFile (File.parse text)).stages index = true
  · refine .inl ⟨⟨Placed.reach v.chars, v.isDeclaration⟩, ?_, rfl⟩
    rw [ofFile, occurrences_stage]
    exact (mem_sortByStart (fun _ => (File.stages_mentioned text).nonempty)
      (File.stages_mentioned text).apart hv).mpr hof
  · -- Only a source may stand for the stage without being one of its names.
    right
    cases v with
    | name site e => exact absurd (beq_iff_eq.mpr (Option.some.inj hindex)) hof
    | source site e =>
        have htarget : Stage.target? (ofFile (File.parse text)).stages site e.text = some index :=
          hindex
        have hdigits : e.text.all Char.isDigit = true := by
          simpa [StageMention.isOf, htarget] using hof
        have hspan := Excerpt.span_eq_reach ((File.stages_mentioned text).nonempty hv)
        refine ⟨⟨e.text, e.span, site.index, some index⟩, ?_, hspan, rfl, hdigits⟩
        have hsource : (site, e) ∈
            Site.sources (Site.ofInstructions 0 .global (File.parse text).instructions) := by
          rcases List.mem_append.mp hv with hv | hv
          · obtain ⟨d, -, hd⟩ := List.mem_map.mp hv
            cases hd
          · obtain ⟨u, hu, hsame⟩ := List.mem_map.mp hv
            obtain ⟨rfl, rfl⟩ := StageMention.source.inj hsame
            exact hu
        rw [ofFile, stageReferences_eq, List.mem_filterMap]
        refine ⟨(site, e), hsource, ?_⟩
        rw [StageReference.ofSource?, show Stage.target? (ofInstructions _).stages site e.text =
          some index from htarget]
        simp

/-- The occurrences of the symbol under a cursor are a group. -/
theorem symbol_isGroup (h : (ofFile (File.parse text)).symbolAt? offset = some (symbol, span)) :
    (ofFile (File.parse text)).IsGroup offset symbol span := by
  obtain ⟨htouched, ⟨m, hm, rfl, rfl⟩ | ⟨v, hv, rfl, index, hindex, rfl⟩⟩ := exists_of_symbolAt? h
  · obtain ⟨name, scope, hsymbol⟩ : ∃ name scope,
        m.symbol (ofFile (File.parse text)).bindings = .var name scope := by
      cases m <;> exact ⟨_, _, rfl⟩
    rw [hsymbol] at h ⊢
    refine ⟨htouched, ?_, ?_, ?_, fun d hd => mem_occurrences_of_definitionAt? h hd⟩
    · rw [ofFile, occurrences_var]
      exact sortByStart_separated (File.mentions_detached text)
        (fun _ => (File.mentioned text).nonempty) _ _
    · exact .inl ⟨_, (File.mem_occurrences hm name scope).mpr (Mention.isOf_iff.mpr hsymbol), rfl⟩
    · intro o ho
      obtain ⟨other, hother, hsame, hspan⟩ := exists_mention_of_mem ho
      rw [hspan, symbolAt?_of_mention hother (Placed.reach_contains_start _), hsame]
  · refine ⟨htouched, ?_, ?_, ?_, fun d hd => mem_occurrences_of_definitionAt? h hd⟩
    · rw [ofFile, occurrences_stage]
      exact sortByStart_separated (File.stageMentions_detached text)
        (fun _ => (File.stages_mentioned text).nonempty) _ _
    · rcases listed_of_stageMention hv hindex with hlisted | ⟨r, hr, hspan, hstage, hdigits⟩
      · exact .inl hlisted
      · refine .inr ⟨r, hr, hspan, ?_, hdigits⟩
        rw [hstage]
        rfl
    · intro o ho
      obtain ⟨other, hother, hsame, hspan⟩ := exists_stageMention_of_mem ho
      rw [hspan, symbolAt?_of_stageMention hother hsame]

/-- The name of a stage may hold a variable, which is another symbol. -/
theorem symbol_isGroup_stage :
    let table := ofFile (File.parse "FROM a AS b$v\nCOPY --from=b$v x y".toList)
    (table.symbolAt? 10 = some (.stage 0, ⟨10, 13⟩) ∧ table.IsGroup 10 (.stage 0) ⟨10, 13⟩) ∧
      table.symbolAt? 12 = some (.var "v".toList (.stage 0), ⟨12, 13⟩) ∧
        table.IsGroup 12 (.var "v".toList (.stage 0)) ⟨12, 13⟩ := by
  intro table
  have hstage : table.symbolAt? 10 = some (.stage 0, ⟨10, 13⟩) := by decide +kernel
  have hvariable : table.symbolAt? 12 = some (.var "v".toList (.stage 0), ⟨12, 13⟩) := by
    decide +kernel
  exact ⟨⟨hstage, symbol_isGroup hstage⟩, hvariable, symbol_isGroup hvariable⟩

end ScopeTable

end Dockerfile
