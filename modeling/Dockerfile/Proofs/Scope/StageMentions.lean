import Dockerfile.Proofs.Scope.Tables

/-!
# Where stages are mentioned

A stage is mentioned by the `FROM` that gives it a name, and as a source: by the image of a later
`FROM` and by the flag `--from` of a copy. As with variables, the tables list these mentions one by
one, and the occurrences of a stage are some of them (`ScopeTable.occurrences_stage`).
-/

namespace Dockerfile

theorem filterMap_eq_map_filter {α β : Type} {f : α → Option β} {p : α → Bool} {g : α → β}
    {xs : List α} (h : ∀ x ∈ xs, f x = if p x then some (g x) else none) :
    xs.filterMap f = (xs.filter p).map g := by
  rw [List.filterMap_congr h]
  clear h
  induction xs with
  | nil => rfl
  | cons x xs ih =>
      by_cases hx : p x = true
      · simp [hx, ih]
      · simp [hx, ih]

theorem flatMap_filter {α β : Type} (p : α → Bool) (f : α → List β) (xs : List α) :
    (xs.filter p).flatMap f = xs.flatMap fun x => if p x then f x else [] := by
  induction xs with
  | nil => rfl
  | cons x xs ih =>
      by_cases hx : p x = true
      · simp [hx, ih]
      · simp [hx, ih]

/-- Among what is numbered one by one, a number is found at its place. -/
theorem filter_of_range' {α : Type} {f : α → Nat} {start : Nat} {xs : List α}
    (h : xs.map f = List.range' start xs.length) (i : Nat) :
    xs.filter (fun x => f x == start + i) = xs[i]?.toList := by
  induction xs generalizing start i with
  | nil => rfl
  | cons x xs ih =>
      rw [List.map_cons, List.length_cons, List.range'_succ] at h
      obtain ⟨hx, hxs⟩ := List.cons.inj h
      cases i with
      | zero =>
          have hrest : xs.filter (fun y => f y == start) = [] := by
            refine List.filter_eq_nil_iff.mpr fun y hy => ?_
            have hin := List.mem_map_of_mem (f := f) hy
            rw [hxs, List.mem_range'_1] at hin
            simp
            omega
          rw [Nat.add_zero, List.filter_cons_of_pos (by simp [hx]), hrest]
          rfl
      | succ i =>
          rw [List.filter_cons_of_neg (by simp [hx]), List.getElem?_cons_succ, ← ih hxs i,
            Nat.add_right_comm, Nat.add_assoc]

def Flag.source? (flag : Flag) : Option Excerpt :=
  if flag.name.text = "from".toList then flag.value.filter fun value => !value.isEmpty else none

namespace Instruction

def stageName? (inst : Instruction) : Option Excerpt :=
  if inst.isKind .FROM then Stage.declaredName? inst else none

def sources (inst : Instruction) : List Excerpt :=
  if inst.isKind .FROM then inst.positional.head?.toList.map Argument.content
  else if inst.isKind .COPY then inst.flags.filterMap Flag.source?
  else []

def stageMentions (inst : Instruction) : List (List Placed) :=
  (inst.stageName?.toList ++ inst.sources).map Excerpt.chars

end Instruction

/-! ## Arguments that mention a stage -/

def Argument.source? (arg : Argument) : Option Excerpt :=
  (Flag.ofArgument? arg 0).bind Flag.source?

theorem Excerpt.exists_of_cutAtEquals {e v : Excerpt} (h : e.cutAtEquals.2 = some v) :
    ∃ equals, equals.char = '=' ∧ e.chars = e.cutAtEquals.1.chars ++ equals :: v.chars := by
  have hsplit := @List.takeWhile_append_dropWhile _ (fun p : Placed => p.char != '=') e.chars
  have hhead := List.head?_dropWhile_not (fun p : Placed => p.char != '=') e.chars
  unfold cutAtEquals at h ⊢
  generalize e.chars.dropWhile (fun p => p.char != '=') = rest at h hsplit hhead
  cases rest with
  | nil => cases h
  | cons equals rest =>
      obtain rfl := Option.some.inj h
      exact ⟨equals, by simpa using hhead, hsplit.symm⟩

theorem Argument.exists_of_source? {arg : Argument} {e : Excerpt} (h : arg.source? = some e) :
    e.chars ≠ [] ∧ ∃ a, arg.content.chars = a ++ e.chars ∧ Placed.text a = "--from=".toList := by
  obtain ⟨flag, hflag, hsource⟩ := Option.bind_eq_some_iff.mp h
  unfold Flag.ofArgument? at hflag
  split at hflag
  · rename_i hdashes
    obtain rfl := Option.some.inj hflag
    unfold Flag.source? at hsource
    split at hsource
    · rename_i hname
      obtain ⟨hvalue, hnonempty⟩ := Option.filter_eq_some_iff.mp hsource
      obtain ⟨equals, hequals, hchars⟩ := Excerpt.exists_of_cutAtEquals hvalue
      have hdrop : arg.content.chars.take 2 ++ arg.content.chars.drop 2 = arg.content.chars :=
        List.take_append_drop 2 _
      have htake : Placed.text (arg.content.chars.take 2) = ['-', '-'] := by
        rw [Placed.text, List.map_take]
        exact (List.prefix_iff_eq_take.mp (List.isPrefixOf_iff_prefix.mp hdashes)).symm
      have hname : Placed.text (arg.content.part (arg.content.chars.drop 2) []).cutAtEquals.1.chars =
        "from".toList := hname
      refine ⟨by simpa [Excerpt.isEmpty] using hnonempty, arg.content.chars.take 2 ++
        ((arg.content.part (arg.content.chars.drop 2) []).cutAtEquals.1.chars ++ [equals]), ?_, ?_⟩
      · rw [List.append_assoc, List.append_assoc, List.singleton_append, ← hchars]
        exact hdrop.symm
      · rw [Placed.text_append, Placed.text_append, htake, hname, Placed.text_cons, hequals]
        rfl
    · cases hsource
  · cases hflag

theorem Argument.exists_read_of_mem {escape : Char} {whole : Excerpt} {index : Nat}
    {chars : List Placed} {arg : Argument} (h : arg ∈ splitFrom escape whole index chars) :
    ∃ p rest, isBlank p.char = false ∧
      arg.content.chars = (Word.read escape none (p :: rest)).chars := by
  fun_induction splitFrom escape whole index chars with
  | case1 => cases h
  | case2 _ _ _ _ ih => exact ih h
  | case3 _ p rest hblank _ _ ih =>
      rcases List.mem_cons.mp h with rfl | h
      · exact ⟨p, rest, by simpa using hblank, rfl⟩
      · exact ih h

namespace Instruction

theorem flagsFrom_sources (index : Nat) (args : List Argument) :
    (flagsFrom index args).filterMap Flag.source? =
      (args.takeWhile Flag.isFlag).filterMap Argument.source? := by
  induction args generalizing index with
  | nil => rfl
  | cons arg args ih =>
      rw [flagsFrom, List.takeWhile_cons]
      by_cases hflag : Flag.isFlag arg = true
      · simp only [Flag.ofArgument?, hflag, if_true, List.filterMap_cons, Argument.source?,
          Option.bind_some, ih]
        rfl
      · simp only [Flag.ofArgument?, hflag, Bool.false_eq_true, if_false, List.filterMap_nil]

theorem sources_of_copy {inst : Instruction} (hfrom : ¬ inst.isKind .FROM = true) :
    inst.sources = if inst.isKind .COPY then
      (inst.arguments.takeWhile Flag.isFlag).filterMap Argument.source? else [] := by
  rw [sources, if_neg hfrom]
  by_cases hcopy : inst.isKind .COPY = true
  · have hflags : inst.bearsFlags = true := by
      rw [bearsFlags, eq_of_beq hcopy]
      rfl
    rw [if_pos hcopy, if_pos hcopy, flags, if_pos hflags, flagsFrom_sources]
  · rw [if_neg hcopy, if_neg hcopy]

theorem positional_of_from {inst : Instruction} (hfrom : inst.isKind .FROM = true) :
    inst.positional = inst.arguments.dropWhile Flag.isFlag := by
  have hflags : inst.bearsFlags = true := by
    rw [bearsFlags, eq_of_beq hfrom]
    rfl
  exact if_pos hflags

theorem positional_sublist (inst : Instruction) : inst.positional.Sublist inst.arguments := by
  unfold positional
  split
  · exact List.dropWhile_sublist _
  · exact List.Sublist.refl _

def sourceMark (inst : Instruction) : Text :=
  if inst.isKind .FROM then [] else "--from=".toList

/-- The argument mentions a stage: it is named behind the mark. -/
def Bears (inst : Instruction) (arg : Argument) (v : List Placed) : Prop :=
  v ≠ [] ∧ ∃ a, arg.content.chars = a ++ v ∧ Placed.text a = inst.sourceMark

theorem bears_of_from {inst : Instruction} (hfrom : inst.isKind .FROM = true) {arg : Argument}
    (harg : arg ∈ inst.positional) : inst.Bears arg arg.content.chars := by
  obtain ⟨p, rest, hblank, hchars⟩ := Argument.exists_read_of_mem (inst.positional_sublist.mem harg)
  obtain ⟨word, hword, -⟩ := Argument.Word.exists_read_eq inst.escape rest hblank
  refine ⟨?_, [], rfl, (if_pos hfrom).symm⟩
  rw [hchars, hword]
  exact List.cons_ne_nil _ _

/-- A `FROM` mentions stages in its first and its third argument, a copy in its flags. Each argument
mentions one. -/
theorem exists_bearers (inst : Instruction) :
    ∃ bearers, List.Subperm bearers inst.arguments ∧
      List.Forall₂ (fun v arg => inst.Bears arg v) inst.stageMentions bearers := by
  by_cases hfrom : inst.isKind .FROM = true
  · have hsub := inst.positional_sublist
    have hbears := @bears_of_from inst hfrom
    rw [stageMentions, stageName?, sources, if_pos hfrom, if_pos hfrom, Stage.declaredName?]
    generalize inst.positional = args at hsub hbears
    match args with
    | [] => exact ⟨[], List.nil_subperm, .nil⟩
    | [image] => exact ⟨[image], hsub.subperm, .cons (hbears (by simp)) .nil⟩
    | [image, as] =>
        exact ⟨[image], ((List.take_sublist 1 [image, as]).trans hsub).subperm,
          .cons (hbears (by simp)) .nil⟩
    | image :: as :: name :: rest =>
        by_cases has : Text.sameIgnoringCase as.text "as".toList = true
        · have hpair : [image, name].Sublist (image :: as :: name :: rest) :=
            .cons_cons _ (.cons _ (.cons_cons _ (List.nil_sublist _)))
          refine ⟨[name, image], ?_, ?_⟩
          · exact (List.Perm.swap _ _ _).subperm.trans (hpair.trans hsub).subperm
          · simp only [if_pos has]
            exact .cons (hbears (by simp)) (.cons (hbears (by simp)) .nil)
        · refine ⟨[image], ((List.take_sublist 1 _).trans hsub).subperm, ?_⟩
          simp only [if_neg has]
          exact .cons (hbears (by simp)) .nil
  · rw [stageMentions, stageName?, if_neg hfrom, Option.toList_none, List.nil_append,
      sources_of_copy hfrom]
    by_cases hcopy : inst.isKind .COPY = true
    · have hflags : (inst.arguments.takeWhile Flag.isFlag).Sublist inst.arguments :=
        List.takeWhile_sublist _
      rw [if_pos hcopy]
      refine ⟨(inst.arguments.takeWhile Flag.isFlag).filter fun arg => arg.source?.isSome,
        (List.filter_sublist.trans hflags).subperm, ?_⟩
      generalize inst.arguments.takeWhile Flag.isFlag = args
      induction args with
      | nil => exact .nil
      | cons arg args ih =>
          cases hsource : arg.source? with
          | none =>
              rw [List.filterMap_cons_none hsource, List.filter_cons_of_neg (by simp [hsource])]
              exact ih
          | some e =>
              obtain ⟨hne, a, hchars, hmark⟩ := Argument.exists_of_source? hsource
              rw [List.filterMap_cons_some hsource, List.filter_cons_of_pos (by simp [hsource])]
              exact .cons ⟨hne, a, hchars, hmark.trans (if_neg hfrom).symm⟩ ih
    · rw [if_neg hcopy]
      exact ⟨[], List.nil_subperm, .nil⟩

theorem exists_bearer {inst : Instruction} {v : List Placed} (h : v ∈ inst.stageMentions) :
    ∃ arg ∈ inst.arguments, inst.Bears arg v := by
  obtain ⟨bearers, hsub, hbears⟩ := inst.exists_bearers
  obtain ⟨arg, harg, hv⟩ := exists_of_forall₂ hbears.flip h
  exact ⟨arg, hsub.subset harg, hv⟩

theorem infix_of_mem_stageMentions {inst : Instruction} {v : List Placed} (h : v ∈ inst.stageMentions) :
    v ≠ [] ∧ v <:+: inst.region.chars := by
  obtain ⟨arg, harg, hne, a, hchars, -⟩ := exists_bearer h
  refine ⟨hne, List.IsInfix.trans ?_ (Argument.infix_of_mem_splitFrom harg)⟩
  rw [hchars]
  exact (List.suffix_append _ _).isInfix

theorem Bears.subset {inst : Instruction} {arg : Argument} {v : List Placed} (h : inst.Bears arg v) :
    v ⊆ arg.content.chars := by
  obtain ⟨-, a, hchars, -⟩ := h
  rw [hchars]
  exact List.subset_append_right _ _

/-- What keeps arguments from each other keeps stages that they mention from each other. -/
theorem stageMentions_separated {R : List Placed → List Placed → Prop} (hR : Separation R)
    {inst : Instruction}
    (hargs : inst.arguments.Pairwise fun a b => R a.content.chars b.content.chars) :
    inst.stageMentions.Pairwise R := by
  obtain ⟨bearers, ⟨sub, hperm, hsub⟩, hbears⟩ := inst.exists_bearers
  have hbearers := (hperm.pairwise_iff fun h => hR.symm h).mp (hargs.sublist hsub)
  clear hperm hsub hargs
  generalize inst.stageMentions = vs at hbears
  induction hbears with
  | nil => exact .nil
  | cons hv hvs ih =>
      obtain ⟨hfirst, hrest⟩ := List.pairwise_cons.mp hbearers
      refine .cons (fun w hw => ?_) (ih hrest)
      obtain ⟨other, hother, hw⟩ := exists_of_forall₂ hvs.flip hw
      exact hR.mono (hfirst other hother) (Bears.subset hv) (Bears.subset hw)

theorem stageMentions_disjoint {inst : Instruction} (hn : inst.region.chars.Nodup) :
    inst.stageMentions.Pairwise List.Disjoint :=
  stageMentions_separated separation_disjoint (arguments_disjoint hn)

end Instruction

/-! ## Tables -/

namespace Stage

def target? (stages : List Stage) (site : Site) (name : Text) : Option Nat :=
  if site.isFrom then
    ((stages.take site.scope.stageIndex).find? (isNamed name)).map Stage.index
  else StageReference.source? stages name

theorem ofSites_eq (sites : List Site) :
    (ofSites sites).map (fun stage => (stage.index, stage.name)) =
      (sites.filter Site.isFrom).map fun site =>
        (site.scope.stageIndex, site.instruction.stageName?) := by
  induction sites with
  | nil => rfl
  | cons site sites ih =>
      rw [ofSites]
      by_cases hfrom : site.isFrom = true
      · rw [if_pos hfrom, List.filter_cons_of_pos hfrom, List.map_cons, List.map_cons, ih]
        have hname : site.instruction.stageName? = declaredName? site.instruction := if_pos hfrom
        rw [hname]
        rfl
      · rw [if_neg hfrom, List.filter_cons_of_neg hfrom, ih]

theorem map_index (index : Nat) (scope : Scope) (insts : List Instruction) :
    (ofSites (Site.ofInstructions index scope insts)).map Stage.index =
      List.range' scope.next.stageIndex (ofSites (Site.ofInstructions index scope insts)).length := by
  induction insts generalizing index scope with
  | nil => rfl
  | cons inst insts ih =>
      rw [Site.ofInstructions, ofSites]
      by_cases hfrom : inst.isKind .FROM = true
      · have hnext : scope.next.next.stageIndex = scope.next.stageIndex + 1 := by cases scope <;> rfl
        simp only [Site.isFrom, hfrom, if_true, List.map_cons, List.length_cons, List.range'_succ, ih,
          hnext]
        rfl
      · simp only [Site.isFrom, hfrom, Bool.false_eq_true, if_false, ih]

end Stage

namespace StageReference

def ofSource? (stages : List Stage) (site : Site) (e : Excerpt) : Option StageReference :=
  if site.isFrom && (Stage.target? stages site e.text).isNone then none
  else some ⟨e.text, e.span, site.index, Stage.target? stages site e.text⟩

theorem ofSite_eq (stages : List Stage) (site : Site) :
    ofSite stages site = site.instruction.sources.filterMap (ofSource? stages site) := by
  unfold ofSite Instruction.sources ofSource? Stage.target?
  by_cases hfrom : site.isFrom = true
  · have hkind : site.instruction.isKind .FROM = true := hfrom
    simp only [hfrom, hkind, if_true, Bool.true_and]
    cases site.instruction.positional.head? with
    | none => rfl
    | some image =>
        have htext : image.text = image.content.text := rfl
        simp only [Option.toList_some, List.map_cons, List.map_nil, htext]
        cases hfind : (stages.take site.scope.stageIndex).find? (Stage.isNamed image.content.text) with
        | none => simp only [List.filterMap, hfind, Option.map_none, Option.isNone_none, if_true]
        | some stage =>
            simp only [List.filterMap, hfind, Option.map_some, Option.isNone_some, Bool.false_eq_true,
              if_false]
            rfl
  · have hkind : site.instruction.isKind .FROM = false := by simpa [Site.isFrom] using hfrom
    simp only [hfrom, hkind, Bool.false_eq_true, if_false, Bool.false_and]
    by_cases hcopy : site.instruction.isKind .COPY = true
    · simp only [if_pos hcopy, List.filterMap_filterMap]
      refine List.filterMap_congr fun flag _ => ?_
      unfold Flag.source?
      by_cases hname : flag.name.text = "from".toList
      · simp only [if_pos hname]
        cases flag.value with
        | none => rfl
        | some value => cases hempty : value.isEmpty <;> simp [Option.filter, hempty]
      · simp only [if_neg hname, Option.bind_none]
    · simp only [if_neg hcopy, List.filterMap_nil]

end StageReference

/-- A stage that is mentioned by an instruction: given a name, or used as a source. -/
inductive StageMention where
  | name (site : Site) (excerpt : Excerpt)
  | source (site : Site) (excerpt : Excerpt)

namespace StageMention

def chars : StageMention → List Placed
  | name _ e => e.chars
  | source _ e => e.chars

def isDeclaration : StageMention → Bool
  | name _ _ => true
  | source _ _ => false

/-- Whether a stage is named. A source of digits only is no name, whichever way it was resolved. -/
def isOf (stages : List Stage) (index : Nat) : StageMention → Bool
  | name site _ => site.scope.stageIndex == index
  | source site e => Stage.target? stages site e.text == some index && !e.text.all Char.isDigit

end StageMention

namespace Site

def stageNames (sites : List Site) : List (Site × Excerpt) :=
  sites.flatMap fun site => site.instruction.stageName?.toList.map (Prod.mk site)

def sources (sites : List Site) : List (Site × Excerpt) :=
  sites.flatMap fun site => site.instruction.sources.map (Prod.mk site)

def stageMentions (sites : List Site) : List StageMention :=
  ((stageNames sites).map fun d => .name d.1 d.2) ++ (sources sites).map fun u => .source u.1 u.2

theorem stageMentions_perm (sites : List Site) :
    ((stageMentions sites).map StageMention.chars).Perm
      ((sites.map Site.instruction).flatMap Instruction.stageMentions) := by
  have hsplit : (stageMentions sites).map StageMention.chars =
      (sites.flatMap fun site => site.instruction.stageName?.toList.map Excerpt.chars) ++
        sites.flatMap fun site => site.instruction.sources.map Excerpt.chars := by
    simp only [stageMentions, stageNames, sources, List.map_append, List.map_flatMap, List.map_map]
    rfl
  have hinst : Instruction.stageMentions = fun inst =>
      inst.stageName?.toList.map Excerpt.chars ++ inst.sources.map Excerpt.chars := by
    funext inst
    exact List.map_append
  rw [hsplit, List.flatMap_map, hinst]
  exact List.flatMap_append_perm _ _ _

end Site

namespace ScopeTable

theorem stageReferences_eq (insts : List Instruction) :
    (ofInstructions insts).stageReferences =
      (Site.sources (Site.ofInstructions 0 .global insts)).filterMap fun u =>
        StageReference.ofSource? (ofInstructions insts).stages u.1 u.2 := by
  rw [Site.sources, List.filterMap_flatMap]
  simp only [List.filterMap_map]
  show (Site.ofInstructions 0 .global insts).flatMap _ = _
  congr 1
  funext site
  exact StageReference.ofSite_eq _ site

theorem mem_stageMentions_of_stageNames {sites : List Site} {d : Site × Excerpt}
    (h : d ∈ Site.stageNames sites) : d.2.chars ∈ d.1.instruction.stageMentions := by
  obtain ⟨site, -, hd⟩ := List.mem_flatMap.mp h
  obtain ⟨e, he, rfl⟩ := List.mem_map.mp hd
  exact List.mem_map_of_mem (List.mem_append_left _ he)

theorem mem_stageMentions_of_sources {sites : List Site} {u : Site × Excerpt}
    (h : u ∈ Site.sources sites) : u.2.chars ∈ u.1.instruction.stageMentions := by
  obtain ⟨site, -, hu⟩ := List.mem_flatMap.mp h
  obtain ⟨e, he, rfl⟩ := List.mem_map.mp hu
  exact List.mem_map_of_mem (List.mem_append_right _ he)

/-- The place of a stage's name is found among the names given to stages. -/
theorem stageNameSpan?_eq (insts : List Instruction) (index : Nat) :
    ((ofInstructions insts).stageNameSpan? index).toList =
      ((Site.stageNames (Site.ofInstructions 0 .global insts)).filter fun d =>
        d.1.scope.stageIndex == index).map fun d => d.2.span := by
  have hindex := filter_of_range' (Stage.map_index 0 .global insts) index
  have hpairs := Stage.ofSites_eq (Site.ofInstructions 0 .global insts)
  let spans (n : Nat × Option Excerpt) : List Span :=
    if n.1 == index then n.2.toList.map Excerpt.span else []
  calc ((ofInstructions insts).stageNameSpan? index).toList
    _ = (Stage.ofSites (Site.ofInstructions 0 .global insts))[index]?.toList.flatMap fun s =>
          s.name.toList.map Excerpt.span := by
        unfold stageNameSpan?
        show (Option.bind (Stage.ofSites _)[index]? _).toList = _
        cases (Stage.ofSites (Site.ofInstructions 0 .global insts))[index]? with
        | none => rfl
        | some stage => cases hname : stage.name <;> simp [hname]
    _ = ((Stage.ofSites (Site.ofInstructions 0 .global insts)).map fun s =>
          (s.index, s.name)).flatMap spans := by
        rw [← hindex, flatMap_filter, List.flatMap_map]
        simp only [Scope.next, Scope.stageIndex, Nat.zero_add, spans]
    _ = (Site.ofInstructions 0 .global insts).flatMap fun site =>
          spans (site.scope.stageIndex, site.instruction.stageName?) := by
        rw [hpairs, List.flatMap_map, flatMap_filter]
        congr 1
        funext site
        split
        · rfl
        · rename_i hfrom
          have hname : site.instruction.stageName? = none := if_neg hfrom
          simp [spans, hname]
    _ = _ := by
        rw [Site.stageNames, List.filter_flatMap, List.map_flatMap]
        congr 1
        funext site
        cases site.instruction.stageName? with
        | none => simp [spans]
        | some e => by_cases hsame : site.scope.stageIndex = index <;> simp [spans, hsame]

theorem occurrences_stage (insts : List Instruction) (index : Nat) :
    (ofInstructions insts).occurrences (.stage index) = sortByStart
      (((Site.stageMentions (Site.ofInstructions 0 .global insts)).filter
        (StageMention.isOf (ofInstructions insts).stages index)).map fun m =>
          ⟨Placed.reach m.chars, m.isDeclaration⟩) := by
  show sortByStart (((ofInstructions insts).stageNameSpan? index).toList.map _ ++
    ((ofInstructions insts).stageReferences.filter _).map _) = _
  rw [Site.stageMentions, List.filter_append, List.map_append, List.filter_map, List.filter_map,
    List.map_map, List.map_map]
  congr 2
  · rw [stageNameSpan?_eq, List.map_map]
    refine List.map_congr_left fun d hd => ?_
    have hmention := mem_stageMentions_of_stageNames (List.mem_filter.mp hd).1
    exact congrArg (Occurrence.mk · true)
      (Excerpt.span_eq_reach (Instruction.infix_of_mem_stageMentions hmention).1)
  · rw [stageReferences_eq, List.filter_filterMap, List.map_filterMap]
    refine filterMap_eq_map_filter fun u hu => ?_
    have hmention := mem_stageMentions_of_sources hu
    have hspan := Excerpt.span_eq_reach (Instruction.infix_of_mem_stageMentions hmention).1
    show ((StageReference.ofSource? _ u.1 u.2).filter _).map _ =
      if StageMention.isOf (ofInstructions insts).stages index (.source u.1 u.2) then _ else _
    by_cases hselected :
      StageMention.isOf (ofInstructions insts).stages index (.source u.1 u.2) = true
    · rw [if_pos hselected, StageReference.ofSource?]
      rw [StageMention.isOf, Bool.and_eq_true] at hselected
      rw [eq_of_beq hselected.1, Option.isNone_some, Bool.and_false, if_neg Bool.false_ne_true,
        Option.filter_some, if_pos (Bool.and_eq_true_iff.mpr ⟨beq_self_eq_true _, hselected.2⟩)]
      exact congrArg (some ∘ (Occurrence.mk · false)) hspan
    · rw [if_neg hselected, StageReference.ofSource?]
      split
      · rfl
      · rw [Option.filter_some]
        exact congrArg (Option.map _) (if_neg hselected)

end ScopeTable

namespace File

def stageMentions (text : Text) : List StageMention :=
  Site.stageMentions (Site.ofInstructions 0 .global (parse text).instructions)

theorem stages_mentioned (text : Text) :
    Mentioned text StageMention.chars Instruction.stageMentions (stageMentions text) where
  listed := by
    have hperm := Site.stageMentions_perm (Site.ofInstructions 0 .global (parse text).instructions)
    rwa [Site.map_instruction] at hperm
  placed _ _ := Instruction.infix_of_mem_stageMentions
  disjoint _ := Instruction.stageMentions_disjoint

end File

end Dockerfile
