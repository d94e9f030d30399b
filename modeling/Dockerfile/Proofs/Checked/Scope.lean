import Dockerfile.Proofs.Scope.Visibility
import Dockerfile.Proofs.Checked.Substitution

/-!
# Stages and variables, access by access

The tables of a file refer to each other by number: a reference to the declaration it is resolved to,
an instruction to the stage it belongs to. Every number that is followed is that of an entry. A stage
that has been opened grows with each of its instructions, so while the stages are collected the last
one is changed in its place.
-/

namespace Dockerfile

namespace Checked

/-! ## References -/

def behindEquals? (text : Text) : Option Nat :=
  if text.contains '=' then some (Text.byteLength (text.takeWhile fun c => c != '=') + 1) else none

def referencesIn (bindings : List Binding) (site : Site) (inst : Instruction) (arg : Argument)
    (start : Nat) : Checked (List VariableReference) := do
  let value ← sliceFrom arg.text start
  let inFrom := inst.isKind .FROM
  (← scan inst.escape value).mapM fun raw => do
    let name ← slice arg.text (start + raw.nameStart) (start + raw.nameStop)
    let span ← spanAt arg.content (start + raw.nameStart) (start + raw.nameStop)
    let fullSpan ← spanAt arg.content (start + raw.start) (start + raw.stop)
    return ⟨name, span, fullSpan, site.index, site.scope, inFrom,
      Binding.resolve? bindings name site.index site.scope inFrom⟩

/-- The references of one instruction; those of an `ONBUILD` are the deferred instruction's. -/
def references (bindings : List Binding) (site : Site) : Checked (List VariableReference) := do
  let inst := (← trigger? site.instruction).getD site.instruction
  let declares := VariableReference.declares inst
  let legacy := (inst.isKind .ENV || inst.isKind .LABEL) &&
    (← properties inst).head?.any Property.isLegacy
  flatMap (fun (arg, index) => do
    if declares && !(legacy && decide (0 < index)) then
      match behindEquals? arg.text with
      | some start => referencesIn bindings site inst arg start
      | none => return []
    else referencesIn bindings site inst arg 0) inst.arguments.zipIdx

theorem behindEquals?_eq (arg : Argument) :
    (behindEquals? arg.text = none ∧ VariableReference.substitutedValue arg = []) ∨
      ∃ front, behindEquals? arg.text = some (total Placed.size front) ∧
        arg.content.chars = front ++ VariableReference.substitutedValue arg := by
  obtain ⟨hstart, ⟨hnone, -, hafter⟩ | ⟨equals, rest, hsome, hchar, hafter, hsplit⟩⟩ :=
    search_cases '=' arg.content.chars
  · refine .inl ⟨if_neg (by rw [Argument.text, Excerpt.text, hnone]; decide), ?_⟩
    rw [VariableReference.substitutedValue, Excerpt.cutAtEquals, hafter]
  · refine .inr ⟨(arg.content.chars.takeWhile fun p => p.char != '=') ++ [equals], ?_, ?_⟩
    · have hsize : equals.size = 1 := by rw [Placed.size, hchar]; rfl
      rw [behindEquals?, Argument.text, Excerpt.text, if_pos hsome, hstart, total_append, total_cons,
        total_nil, hsize]
    · rw [VariableReference.substitutedValue, Excerpt.cutAtEquals, hafter, List.append_assoc]
      exact hsplit

theorem span_part (e : Excerpt) {kept : List Placed} (rest : List Placed) (h : kept ≠ []) :
    (e.part kept rest).span = (⟨kept, 0⟩ : Excerpt).span :=
  (Excerpt.span_eq_reach h).trans (Excerpt.span_eq_reach (e := ⟨kept, 0⟩) h).symm

theorem referencesIn_eq (bindings : List Binding) (site : Site) (inst : Instruction) {arg : Argument}
    {front chars : List Placed} (h : arg.content.chars = front ++ chars) :
    referencesIn bindings site inst arg (total Placed.size front) =
      .ok ((Substitution.scan inst.escape chars).map fun s =>
        ⟨Placed.text s.name, s.nameSpan, s.span, site.index, site.scope, inst.isKind .FROM,
          Binding.resolve? bindings (Placed.text s.name) site.index site.scope
            (inst.isKind .FROM)⟩) := by
  have hvalue : sliceFrom arg.text (total Placed.size front) = .ok (Placed.text chars) := by
    refine sliceFrom_eq (a := Placed.text front) ?_ (Placed.total_size front)
    rw [Argument.text, Excerpt.text, h, Placed.text_append]
  obtain ⟨raws, hraws, hrefers⟩ := scan_eq inst.escape chars
  rw [referencesIn, hvalue, ok_bind, hraws, ok_bind]
  refine mapM_forall₂ (hrefers.imp ?_)
  rintro raw s ⟨⟨a, c, hname, hstart, hstop⟩, ⟨a', c', hall, hstart', hstop'⟩, hne, hne'⟩
  have hname' : arg.content.chars = (front ++ a) ++ (s.name ++ c) := by
    rw [h, hname, List.append_assoc]
  have hall' : arg.content.chars = (front ++ a') ++ (s.whole ++ c') := by
    rw [h, hall, List.append_assoc]
  have hcut := slice_text (e := arg.content) hname'
  rw [total_append] at hcut
  have hspan := spanAt_part hname'
  have hfullSpan := spanAt_part hall'
  rw [total_append] at hspan hfullSpan
  have hcut' : slice arg.text (total Placed.size front + total Placed.size a)
      (total Placed.size front + total Placed.size a + total Placed.size s.name) =
        .ok (Placed.text s.name) := hcut
  simp only [hstart, hstop, hstart', hstop', ← Nat.add_assoc, hcut', spanAt_eq, hspan, hfullSpan,
    span_part _ _ hne, span_part _ _ hne', ok_bind]
  rfl

theorem substituted_eq (inst : Instruction) :
    (inst.arguments.zipIdx.map fun p =>
      if VariableReference.declares inst &&
          !(VariableReference.declaresBehindBlank inst && decide (0 < p.2)) then
        VariableReference.substitutedValue p.1
      else p.1.content.chars) = VariableReference.substituted inst := by
  unfold VariableReference.substituted
  cases hblank : VariableReference.declaresBehindBlank inst with
  | true =>
      have hdeclares : VariableReference.declares inst = true := by
        simp only [VariableReference.declaresBehindBlank, Bool.and_eq_true, Bool.or_eq_true] at hblank
        rcases hblank.1 with h | h <;> simp [VariableReference.declares, h]
      cases inst.arguments with
      | nil => rfl
      | cons first rest =>
          have hrest : (rest.zipIdx 1).map (fun p => if true && !(true && decide (0 < p.2)) then
              VariableReference.substitutedValue p.1 else p.1.content.chars) =
              rest.map fun arg => arg.content.chars := by
            rw [← List.zipIdx_map_fst 1 rest, List.map_map, List.zipIdx_map_fst]
            refine List.map_congr_left fun p hp => ?_
            have hpos : 0 < p.2 := (List.mem_zipIdx hp).1
            simp [hpos]
          simp only [hdeclares, List.zipIdx_cons, List.map_cons, Nat.zero_add, hrest]
          rfl
  | false =>
      have hfst : ∀ f : Argument → List Placed,
          (inst.arguments.zipIdx.map fun p => f p.1) = inst.arguments.map f := by
        intro f
        have hmap := congrArg (List.map f) (List.zipIdx_map_fst 0 inst.arguments)
        rwa [List.map_map] at hmap
      simp only [Bool.false_and, Bool.not_false, Bool.and_true, Bool.false_eq_true, if_false]
      split
      · exact hfst VariableReference.substitutedValue
      · exact hfst fun arg => arg.content.chars

@[simp] theorem references_eq (bindings : List Binding) (site : Site) :
    references bindings site = .ok (VariableReference.ofSite bindings site) := by
  unfold references VariableReference.ofSite
  simp only [trigger?_eq, properties_eq, ok_bind]
  generalize site.instruction.trigger?.getD site.instruction = inst
  rw [← substituted_eq, List.flatMap_map]
  refine flatMap_eq ?_
  rintro ⟨arg, index⟩ -
  have hlegacy : ((inst.isKind .ENV || inst.isKind .LABEL) &&
      inst.properties.head?.any Property.isLegacy) =
      VariableReference.declaresBehindBlank inst := rfl
  simp only [hlegacy]
  split
  · rcases behindEquals?_eq arg with ⟨hnone, hvalue⟩ | ⟨front, hsome, hvalue⟩
    · have hnil : Substitution.scan inst.escape [] = [] := by
        rw [Substitution.scan, Substitution.scanFrom.eq_def]
      rw [hnone, hvalue, hnil]
      rfl
    · simp only [hsome]
      exact referencesIn_eq bindings site inst hvalue
  · exact referencesIn_eq bindings site inst (List.nil_append arg.content.chars).symm

/-! ## Stages and declarations -/

def stagesFrom (stages : List Stage) (scope : Scope) (index : Nat) :
    List Instruction → Checked (List Stage)
  | [] => return stages
  | inst :: rest => do
      if inst.isKind .FROM then
        let arguments ← positional inst
        let stage : Stage := ⟨stages.length, arguments.head?.map Argument.content,
          Stage.declaredName? inst, index, inst.span⟩
        stagesFrom (stages ++ [stage]) (.stage stages.length) (index + 1) rest
      else
        match scope with
        | .global => stagesFrom stages scope (index + 1) rest
        | .stage number =>
            let last ← item stages number
            let span ← cover last.span inst.span
            stagesFrom (stages.set number { last with span := span }) scope (index + 1) rest

def bindings (site : Site) : Checked (List Binding) := do
  match site.instruction.kind with
  | some .ARG =>
      return (((← properties site.instruction).take 1).filter fun p => !p.name.isEmpty).map
        (Binding.ofProperty site)
  | some .ENV =>
      return ((← properties site.instruction).filter fun p => !p.name.isEmpty).map
        (Binding.ofProperty site)
  | _ => return []

def stageReferences (stages : List Stage) (site : Site) : Checked (List StageReference) := do
  let inst := site.instruction
  if site.isFrom then
    match (← positional inst).head? with
    | none => return []
    | some image =>
        match (stages.take site.scope.stageIndex).find? (Stage.isNamed image.text) with
        | none => return []
        | some stage => return [⟨image.text, ← fullSpan image.content, site.index, some stage.index⟩]
  else if inst.isKind .COPY then
    filterMap (fun flag => do
      if flag.name.text = "from".toList then
        match flag.value with
        | some value =>
            if value.isEmpty then return none
            else
              return some ⟨value.text, ← fullSpan value, site.index,
                StageReference.source? stages value.text⟩
        | none => return none
      else return none) (← flags inst)
  else return []

def tables (instructions : List Instruction) : Checked ScopeTable := do
  let sites := Site.ofInstructions 0 .global instructions
  let stages ← stagesFrom [] .global 0 instructions
  let bindings ← flatMap bindings sites
  let references ← flatMap (references bindings) sites
  let stageReferences ← flatMap (stageReferences stages) sites
  return ⟨stages, bindings, references, stageReferences, sites⟩

/-- Behind a `FROM`, the stage it opens goes on up to the next one. -/
theorem stagesFrom_stage (insts : List Instruction) (done : List Stage) (last : Stage)
    (hlast : last.span.start ≤ last.span.stop) (index : Nat) :
    stagesFrom (done ++ [last]) (.stage done.length) index insts =
      .ok (done ++ { last with
          span := ((Site.ofInstructions index (.stage done.length) insts).takeWhile
            fun s => !s.isFrom).foldl (fun span s => span.cover s.instruction.span) last.span } ::
        Stage.ofSites (Site.ofInstructions index (.stage done.length) insts)) := by
  induction insts generalizing done last index with
  | nil => rfl
  | cons inst rest ih =>
      cases hfrom : inst.isKind .FROM with
      | true =>
          have hlen : (done ++ [last]).length = done.length + 1 := by simp
          have hnext := ih (done ++ [last]) ⟨done.length + 1, inst.positional.head?.map Argument.content,
            Stage.declaredName? inst, index, inst.span⟩ inst.span_start_le_stop (index + 1)
          rw [hlen] at hnext
          simp only [stagesFrom, hfrom, if_true, positional_eq, ok_bind, hlen]
          rw [hnext, List.append_assoc]
          simp only [Site.ofInstructions, hfrom, if_true, Site.isFrom, Stage.ofSites, Scope.next,
            List.takeWhile_cons, Bool.not_true, Bool.false_eq_true, if_false, List.foldl_nil]
          rfl
      | false =>
          have hitem : item (done ++ [last]) done.length = .ok last := item_eq (by simp)
          have hset (stage : Stage) : (done ++ [last]).set done.length stage = done ++ [stage] := by
            simp
          have hcover : (last.span.cover inst.span).start ≤ (last.span.cover inst.span).stop :=
            Nat.le_trans (Nat.min_le_left _ _) (Nat.le_trans hlast (Nat.le_max_left _ _))
          have hnext := ih done { last with span := last.span.cover inst.span } hcover (index + 1)
          simp only [stagesFrom, hfrom, Bool.false_eq_true, if_false, hitem, ok_bind, cover_eq hlast,
            hset, hnext, Site.ofInstructions, Site.isFrom, Stage.ofSites, List.takeWhile_cons,
            Bool.not_false, if_true, List.foldl_cons]

theorem stagesFrom_eq (insts : List Instruction) (index : Nat) :
    stagesFrom [] .global index insts =
      .ok (Stage.ofSites (Site.ofInstructions index .global insts)) := by
  induction insts generalizing index with
  | nil => rfl
  | cons inst rest ih =>
      cases hfrom : inst.isKind .FROM with
      | true =>
          have hnext := stagesFrom_stage rest [] ⟨0, inst.positional.head?.map Argument.content,
            Stage.declaredName? inst, index, inst.span⟩ inst.span_start_le_stop (index + 1)
          simp only [stagesFrom, hfrom, if_true, positional_eq, ok_bind, List.length_nil,
            List.nil_append] at hnext ⊢
          rw [hnext]
          simp only [Site.ofInstructions, hfrom, if_true, Site.isFrom, Stage.ofSites]
          rfl
      | false =>
          simp only [stagesFrom, hfrom, Bool.false_eq_true, if_false, ih, Site.ofInstructions,
            Site.isFrom, Stage.ofSites]

@[simp] theorem bindings_eq (site : Site) : bindings site = .ok (Binding.ofSite site) := by
  rw [Binding.ofSite_eq]
  unfold bindings Instruction.declared
  simp only [properties_eq, ok_bind, pure_eq]
  cases site.instruction.kind with
  | none => rfl
  | some k => cases k <;> rfl

@[simp] theorem stageReferences_eq (stages : List Stage) (site : Site) :
    stageReferences stages site = .ok (StageReference.ofSite stages site) := by
  unfold stageReferences StageReference.ofSite
  simp only [positional_eq, flags_eq, fullSpan_eq, ok_bind, pure_eq]
  split
  · cases site.instruction.positional.head? with
    | none => rfl
    | some image =>
        dsimp only
        cases (stages.take site.scope.stageIndex).find? (Stage.isNamed image.text) <;> rfl
  split
  · refine filterMap_eq fun flag _ => ?_
    split
    · cases flag.value with
      | none => rfl
      | some value =>
          show (if value.isEmpty then _ else _) = Except.ok (if value.isEmpty then _ else _)
          split <;> rfl
    · rfl
  · rfl

@[simp] theorem tables_eq (instructions : List Instruction) :
    tables instructions = .ok (ScopeTable.ofInstructions instructions) := by
  have hbindings (sites : List Site) : flatMap bindings sites = .ok (sites.flatMap Binding.ofSite) :=
    flatMap_eq fun site _ => bindings_eq site
  have hreferences (bs : List Binding) (sites : List Site) :
      flatMap (references bs) sites = .ok (sites.flatMap (VariableReference.ofSite bs)) :=
    flatMap_eq fun site _ => references_eq bs site
  have hstages (stages : List Stage) (sites : List Site) :
      flatMap (stageReferences stages) sites =
        .ok (sites.flatMap (StageReference.ofSite stages)) :=
    flatMap_eq fun site _ => stageReferences_eq stages site
  simp only [tables, stagesFrom_eq, hbindings, hreferences, hstages, ok_bind, pure_eq]
  rfl

/-! ## Looking up the tables -/

def Resolved (table : ScopeTable) : Prop :=
  ∀ r ∈ table.references, ∀ number ∈ r.binding, number < table.bindings.length

theorem resolved_ofInstructions (instructions : List Instruction) :
    Resolved (ScopeTable.ofInstructions instructions) := by
  intro r hr number hnumber
  obtain ⟨site, -, hsite⟩ := List.mem_flatMap.mp hr
  rw [VariableReference.ofSite_eq] at hsite
  obtain ⟨s, -, rfl⟩ := List.mem_map.mp hsite
  obtain ⟨b, hb, -⟩ := Binding.exists_of_resolve? hnumber
  exact (List.getElem?_eq_some_iff.mp hb).1

def declaration? (table : ScopeTable) (reference : VariableReference) : Checked (Option Binding) :=
  match reference.binding with
  | some number => some <$> item table.bindings number
  | none => return none

def visibleAt (table : ScopeTable) (offset : Nat) : Checked (List Binding) := do
  let count := (table.sites.takeWhile fun s => s.instruction.span.start < offset).length
  if count = 0 then return []
  else
    let current ← item table.sites (count - 1)
    let inside := current.instruction.span.contains offset
    let inFrom := inside && current.isFrom
    let scopes := if inFrom || current.scope == .global then [Scope.global]
      else [current.scope, .global]
    return ScopeTable.firstOfEachName [] (scopes.flatMap fun wanted =>
      table.bindings.reverse.filter fun b =>
        b.scope == wanted &&
          (b.instruction < current.index || (b.instruction == current.index && !inside)))

def symbolScope (table : ScopeTable) (reference : VariableReference) : Checked Scope := do
  match ← declaration? table reference with
  | some binding => return binding.scope
  | none => return reference.scope

/-- The symbol under a cursor and the place of the name there. Only a reference is followed. -/
def symbolAt? (table : ScopeTable) (offset : Nat) : Checked (Option (Symbol × Span)) := do
  match table.bindingAt? offset, table.referenceAt? offset with
  | none, some reference =>
      return some (.var reference.name (← symbolScope table reference), reference.span)
  | _, _ => return table.symbolAt? offset

def occurrences (table : ScopeTable) (symbol : Symbol) : Checked (List Occurrence) := do
  match symbol with
  | .var name scope =>
      let declared := (table.bindings.filter fun b => b.name == name && b.scope == scope).map
        fun b => ⟨b.nameSpan, true⟩
      let used ← filter (fun r => do
        if r.name == name then return (← symbolScope table r) == scope else return false)
        table.references
      return ScopeTable.sortByStart (declared ++ used.map fun r => ⟨r.span, false⟩)
  | .stage _ => return table.occurrences symbol

def definitionAt? (table : ScopeTable) (offset : Nat) : Checked (Option Span) := do
  match table.bindingAt? offset, table.referenceAt? offset with
  | none, some reference => return (← declaration? table reference).map Binding.nameSpan
  | _, _ => return table.definitionAt? offset

def effectiveValue? (table : ScopeTable) (reference : VariableReference) :
    Checked (Option Text) := do
  match ← declaration? table reference with
  | none => return none
  | some binding =>
      match binding.value with
      | some value => return some value
      | none =>
          if binding.kind == .arg && binding.scope != .global then
            return (table.bindings.reverse.find? fun b =>
              b.scope == .global && b.name == binding.name).bind Binding.value
          else return none

section Lookup

variable {table : ScopeTable}

theorem declaration?_eq (h : Resolved table) {r : VariableReference} (hr : r ∈ table.references) :
    declaration? table r = .ok (r.binding.bind fun number => table.bindings[number]?) := by
  have hnumber := h r hr
  unfold declaration?
  cases hbinding : r.binding with
  | none => rfl
  | some number =>
      have hget := List.getElem?_eq_getElem (hnumber number hbinding)
      simp only [item_eq hget, map_ok, Option.bind_some, hget]

@[simp] theorem visibleAt_eq (table : ScopeTable) (offset : Nat) :
    visibleAt table offset = .ok (table.visibleAt offset) := by
  have hprefix := List.takeWhile_prefix (l := table.sites)
    fun s => decide (s.instruction.span.start < offset)
  unfold visibleAt ScopeTable.visibleAt
  rcases List.eq_nil_or_concat (table.sites.takeWhile fun s =>
    decide (s.instruction.span.start < offset)) with hnil | ⟨front, current, hconcat⟩
  · simp only [hnil, List.length_nil, if_true, List.getLast?_nil, pure_eq]
  · rw [List.concat_eq_append] at hconcat
    rw [hconcat] at hprefix
    obtain ⟨rest, hrest⟩ := hprefix
    have hitem : item table.sites front.length = .ok current := item_eq (by rw [← hrest]; simp)
    simp only [hconcat, List.length_append, List.length_singleton, Nat.succ_ne_zero, if_false,
      Nat.add_sub_cancel, hitem, ok_bind, List.getLast?_concat, pure_eq]

theorem symbolScope_eq (h : Resolved table) {r : VariableReference} (hr : r ∈ table.references) :
    symbolScope table r = .ok (table.symbolScope r) := by
  rw [symbolScope, declaration?_eq h hr, ok_bind, ScopeTable.symbolScope]
  cases r.binding.bind fun number => table.bindings[number]? <;> rfl

theorem symbolAt?_eq (h : Resolved table) (offset : Nat) :
    symbolAt? table offset = .ok (table.symbolAt? offset) := by
  unfold symbolAt?
  split
  · rename_i reference hbinding hreference
    rw [symbolScope_eq h (List.mem_of_find?_eq_some hreference), ok_bind, ScopeTable.symbolAt?,
      hbinding]
    simp only [hreference]
    rfl
  · rfl

theorem occurrences_eq (h : Resolved table) (symbol : Symbol) :
    occurrences table symbol = .ok (table.occurrences symbol) := by
  cases symbol with
  | var name scope =>
      have hused : ∀ r ∈ table.references,
          (do if r.name == name then return (← symbolScope table r) == scope else return false) =
            (.ok (r.name == name && table.symbolScope r == scope) : Checked Bool) := by
        intro r hr
        rw [symbolScope_eq h hr]
        cases r.name == name <;> rfl
      rw [occurrences, filter_eq hused]
      rfl
  | stage index => rfl

theorem definitionAt?_eq (h : Resolved table) (offset : Nat) :
    definitionAt? table offset = .ok (table.definitionAt? offset) := by
  unfold definitionAt?
  split
  · rename_i reference hbinding hreference
    rw [declaration?_eq h (List.mem_of_find?_eq_some hreference), ok_bind, ScopeTable.definitionAt?,
      hbinding]
    simp only [hreference]
    cases reference.binding with
    | none => rfl
    | some number =>
        simp only [Option.bind_some, Option.bind_eq_bind]
        cases table.bindings[number]? <;> rfl
  · rfl

theorem effectiveValue?_eq (h : Resolved table) {r : VariableReference} (hr : r ∈ table.references) :
    effectiveValue? table r = .ok (table.effectiveValue? r) := by
  rw [effectiveValue?, declaration?_eq h hr, ok_bind, ScopeTable.effectiveValue?]
  cases r.binding with
  | none => rfl
  | some number =>
      simp only [Option.bind_some, Option.bind_eq_bind]
      cases table.bindings[number]? with
      | none => rfl
      | some binding =>
          simp only [Option.bind_some]
          cases binding.value with
          | some value => rfl
          | none =>
              dsimp only
              split <;> rfl

end Lookup

end Checked

end Dockerfile
