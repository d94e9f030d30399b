import Dockerfile.Editor.Outline
import Dockerfile.Proofs.Check.Places
import Dockerfile.Proofs.File.Ends
import Dockerfile.Proofs.Scope.Stages
import Mathlib.Data.List.Induction

/-!
# Outlines as trees

The outline shows each instruction once, in order: those in front of the first `FROM` at the top, and
each `FROM` as a node with the instructions up to the next one under it. The range of a node holds
those of its children, and ranges beside each other do not overlap. What is selected lies in the range
of its entry, except where a stage ends with its name and that ends with a blank
(`Analysis.outline_faithful`).
-/

namespace Dockerfile

namespace OutlineNode

def entry : OutlineNode → OutlineEntry
  | leaf entry => entry
  | stage entry _ => entry

def children : OutlineNode → List OutlineEntry
  | leaf _ => []
  | stage _ children => children

def entries (node : OutlineNode) : List OutlineEntry :=
  node.entry :: node.children

end OutlineNode

namespace Outline

def lastOf (run : Instruction × List Instruction) : Instruction :=
  run.2.getLast?.getD run.1

def runSpan (run : Instruction × List Instruction) : Span :=
  ⟨run.1.span.start, (lastOf run).span.stop⟩

def selected (inst : Instruction) : Excerpt :=
  (Stage.declaredName? inst).getD inst.keyword

/-- The title of a `FROM`: the name it declares or else its image, unless that is empty. -/
def title (inst : Instruction) : Text :=
  let name := match Stage.declaredName? inst with
    | some name => name.text
    | none => (inst.positional.head?.map Argument.text).getD []
  if name.isEmpty then "FROM".toList else name

def runEntry (text : Text) (run : Instruction × List Instruction) : OutlineEntry where
  name := title run.1
  detail := detail run.1
  kind := .stage
  range := Text.rangeOf text (runSpan run)
  selection := Text.rangeOf text (selected run.1).span

def runNode (text : Text) (run : Instruction × List Instruction) : OutlineNode :=
  .stage (runEntry text run) (run.2.map (entry text))

def tree (text : Text) (insts : List Instruction) : List OutlineNode :=
  (Instruction.leading insts).map (fun inst => .leaf (entry text inst)) ++
    (Instruction.runs insts).map (runNode text)

def Before (a b : Instruction) : Prop :=
  a.span.stop < b.span.start

/-- Spans in order cover everything from the first to the last. -/
theorem cover_eq_runSpan {inst : Instruction} {members : List Instruction}
    (hapart : (inst :: members).Pairwise Before)
    (hordered : ∀ i ∈ inst :: members, i.span.start ≤ i.span.stop) :
    members.foldl (fun span i => span.cover i.span) inst.span = runSpan (inst, members) := by
  induction members using List.reverseRecOn with
  | nil => rfl
  | append_singleton front last ih =>
      have hsub : (inst :: front).Sublist (inst :: (front ++ [last])) :=
        (List.sublist_append_left front [last]).cons_cons inst
      have ih := ih (hapart.sublist hsub) fun i hi => hordered i (hsub.mem hi)
      have hprev : ∀ i ∈ inst :: front, i.span.stop < last.span.start := by
        rw [← List.cons_append] at hapart
        exact fun i hi => (List.pairwise_append.mp hapart).2.2 i hi last List.mem_cons_self
      have hlast := hprev (lastOf (inst, front)) (by
        cases h : front.getLast? with
        | none => simp [lastOf, h]
        | some l => simp [lastOf, h, List.mem_of_getLast? h])
      have hfirst := hprev inst List.mem_cons_self
      have hinst := hordered inst List.mem_cons_self
      have hself := hordered last (by simp)
      rw [List.foldl_append, ih]
      simp only [List.foldl_cons, List.foldl_nil, Span.cover, runSpan, lastOf, List.getLast?_concat,
        Option.getD_some] at hlast ⊢
      rw [Nat.min_eq_left (by omega), Nat.max_eq_right (by omega)]

theorem stageEntry_eq {text : Text} {site : Site} {following : List Site}
    (hapart : (site.instruction :: following.map Site.instruction).Pairwise Before)
    (hordered : ∀ i ∈ site.instruction :: following.map Site.instruction,
      i.span.start ≤ i.span.stop) :
    stageEntry text (Stage.ofSite site following) site.instruction =
      runEntry text (site.instruction, following.map Site.instruction) := by
  have hspan : (Stage.ofSite site following).span =
      runSpan (site.instruction, following.map Site.instruction) := by
    rw [← cover_eq_runSpan hapart hordered, List.foldl_map]
    rfl
  have htitle : stageTitle (Stage.ofSite site following) = title site.instruction := by
    simp only [stageTitle, title, Stage.ofSite, Option.map_map]
    rfl
  have hname : (Stage.ofSite site following).name = Stage.declaredName? site.instruction := rfl
  rw [stageEntry, hspan, htitle, runEntry, selected, hname]
  cases Stage.declaredName? site.instruction <;> rfl

theorem stageNode_eq_some {text : Text} {sites members : List Site} {stage : Stage} {site : Site}
    (hsite : sites[stage.instruction]? = some site)
    (hmembers : (sites.filter fun s => s.scope == .stage stage.index && !s.isFrom) = members) :
    stageNode text sites stage = some (.stage (stageEntry text stage site.instruction)
      (members.map fun s => entry text s.instruction)) := by
  simp only [stageNode, hsite, Option.map_some, hmembers]

theorem stage_stageIndex_next (scope : Scope) : Scope.stage scope.next.stageIndex = scope.next := by
  cases scope <;> rfl

/-- The members of the stage that a `FROM` opens are the sites up to the next `FROM`. -/
theorem members_eq {scope : Scope} {site : Site} {before : List Site} {index : Nat}
    {insts : List Instruction} (hbefore : ∀ s ∈ before, s.scope.rank ≤ scope.rank)
    (hsite : site.isFrom = true) :
    ((before ++ site :: Site.ofInstructions index scope.next insts).filter fun s =>
        s.scope == scope.next && !s.isFrom) =
      (Site.ofInstructions index scope.next insts).takeWhile fun s => !s.isFrom := by
  have hnone : (before.filter fun s => s.scope == scope.next && !s.isFrom) = [] := by
    refine List.filter_eq_nil_iff.mpr fun s hs => ?_
    have hrank := hbefore s hs
    simp only [Bool.and_eq_true, beq_iff_eq, not_and]
    intro hscope
    rw [hscope, Scope.rank_next] at hrank
    omega
  rw [List.filter_append, hnone, List.nil_append, List.filter_cons, hsite, ← Site.filter_scope]
  simp only [Bool.not_true, Bool.and_false, Bool.false_eq_true, if_false]

theorem filterMap_stageNode (text : Text) {scope : Scope} {insts : List Instruction}
    {before : List Site} (hbefore : ∀ s ∈ before, s.scope.rank ≤ scope.rank)
    (hapart : insts.Pairwise Before) (hordered : ∀ i ∈ insts, i.span.start ≤ i.span.stop) :
    (Stage.ofSites (Site.ofInstructions before.length scope insts)).filterMap
        (stageNode text (before ++ Site.ofInstructions before.length scope insts)) =
      (Instruction.runs insts).map (runNode text) := by
  induction insts generalizing before scope with
  | nil => rfl
  | cons inst rest ih =>
      have hrest := (List.pairwise_cons.mp hapart).2
      have hordered' : ∀ i ∈ rest, i.span.start ≤ i.span.stop := fun i hi =>
        hordered i (List.mem_cons_of_mem _ hi)
      cases hfrom : inst.isKind .FROM with
      | false =>
          rw [Site.ofInstructions_cons hfrom, Instruction.runs_cons hfrom, Stage.ofSites,
            Site.isFrom_mk, hfrom]
          have hbefore' : ∀ s ∈ before ++ [⟨before.length, scope, inst⟩],
              s.scope.rank ≤ scope.rank := by
            intro s hs
            rcases List.mem_append.mp hs with hs | hs
            · exact hbefore s hs
            · exact Nat.le_of_eq (by rw [List.mem_singleton.mp hs])
          have hsame := ih hbefore' hrest hordered'
          rwa [List.length_append, List.length_singleton, List.append_assoc, List.singleton_append]
            at hsame
      | true =>
          let site : Site := ⟨before.length, scope.next, inst⟩
          let sites := Site.ofInstructions (before.length + 1) scope.next rest
          let following := sites.takeWhile fun s => !s.isFrom
          have hfollowing : following.map Site.instruction = Instruction.leading rest :=
            Site.takeWhile_instruction _ _ rest
          have hrun : (inst :: Instruction.leading rest).Sublist (inst :: rest) :=
            (List.takeWhile_sublist _).cons_cons inst
          have hentry : stageEntry text (Stage.ofSite site following) inst =
              runEntry text (inst, Instruction.leading rest) := by
            rw [← hfollowing]
            refine @stageEntry_eq text site following ?_ ?_
            · rw [hfollowing]
              exact hapart.sublist hrun
            · rw [hfollowing]
              exact fun i hi => hordered i (hrun.mem hi)
          have hnode : stageNode text (before ++ site :: sites) (Stage.ofSite site following) =
              some (runNode text (inst, Instruction.leading rest)) := by
            have hmembers : ((before ++ site :: sites).filter fun s =>
                s.scope == .stage scope.next.stageIndex && !s.isFrom) = following := by
              rw [stage_stageIndex_next]
              exact members_eq hbefore hfrom
            have hsite : (before ++ site :: sites)[(Stage.ofSite site following).instruction]? =
                some site := by simp [Stage.ofSite, site]
            rw [stageNode_eq_some hsite hmembers, hentry, runNode, ← hfollowing, List.map_map]
            rfl
          have hbefore' : ∀ s ∈ before ++ [site], s.scope.rank ≤ scope.next.rank := by
            intro s hs
            rcases List.mem_append.mp hs with hs | hs
            · rw [Scope.rank_next]
              exact Nat.le_succ_of_le (hbefore s hs)
            · exact Nat.le_of_eq (by rw [List.mem_singleton.mp hs])
          have hsame := ih hbefore' hrest hordered'
          rw [List.length_append, List.length_singleton, List.append_assoc, List.singleton_append]
            at hsame
          rw [Site.ofInstructions_cons_from hfrom, Instruction.runs_cons_from hfrom, Stage.ofSites,
            Site.isFrom_mk, if_pos hfrom, List.filterMap_cons_some hnode, List.map_cons, hsame]

theorem outline_eq_tree (text : Text) (settings : Settings) :
    (analyze text settings).outline = tree text (File.parse text).instructions := by
  have hordered : ∀ i ∈ (File.parse text).instructions, i.span.start ≤ i.span.stop := fun i hi =>
    (File.instruction_within hi).span.ordered
  have hstages := @filterMap_stageNode text .global (File.parse text).instructions [] (by simp)
    (File.parse_separated text) hordered
  have hleading := congrArg (List.map fun inst => OutlineNode.leaf (entry text inst))
    (Site.filter_global (File.parse text).instructions)
  rw [List.map_map] at hleading
  exact congrArg₂ (· ++ ·) hleading hstages

structure Shows (text : Text) (e : OutlineEntry) (inst : Instruction) : Prop where
  start : e.range.start = Text.positionAt text inst.span.start
  detail : e.detail = Outline.detail inst
  stage : e.kind = .stage ↔ inst.isKind .FROM = true
  plain : inst.isKind .FROM = false → e = entry text inst

theorem shows_entry (text : Text) {inst : Instruction} (h : inst.isKind .FROM = false) :
    Shows text (entry text inst) inst := by
  refine ⟨rfl, rfl, ?_, fun _ => rfl⟩
  rw [h]
  refine iff_of_false ?_ (by decide)
  show kindOf inst.kind ≠ .stage
  unfold kindOf
  split <;> decide

theorem shows_runEntry (text : Text) {run : Instruction × List Instruction}
    (h : run.1.isKind .FROM = true) : Shows text (runEntry text run) run.1 :=
  ⟨rfl, rfl, iff_of_true rfl h, fun hnot => by rw [h] at hnot; cases hnot⟩

theorem entries_tree (text : Text) (insts : List Instruction) :
    (tree text insts).flatMap OutlineNode.entries =
      (Instruction.leading insts).map (entry text) ++
        (Instruction.runs insts).flatMap fun run => runEntry text run :: run.2.map (entry text) := by
  rw [tree, List.flatMap_append, List.flatMap_map, List.flatMap_map, List.map_eq_flatMap]
  rfl

theorem forall₂_flatMap {α β γ : Type} {R : β → γ → Prop} {f : α → List β} {g : α → List γ}
    {xs : List α} (h : ∀ x ∈ xs, List.Forall₂ R (f x) (g x)) :
    List.Forall₂ R (xs.flatMap f) (xs.flatMap g) := by
  induction xs with
  | nil => exact .nil
  | cons x xs ih =>
      rw [List.flatMap_cons, List.flatMap_cons]
      exact List.rel_append (h x List.mem_cons_self)
        (ih fun y hy => h y (List.mem_cons_of_mem _ hy))

theorem forall₂_entry (text : Text) {insts : List Instruction}
    (h : ∀ inst ∈ insts, inst.isKind .FROM = false) :
    List.Forall₂ (Shows text) (insts.map (entry text)) insts := by
  rw [List.forall₂_map_left_iff, List.forall₂_same]
  exact fun inst hinst => shows_entry text (h inst hinst)

/-- In pre-order a tree shows every instruction once, in order. -/
theorem tree_preorder (text : Text) (insts : List Instruction) :
    List.Forall₂ (Shows text) ((tree text insts).flatMap OutlineNode.entries) insts := by
  have hleading := forall₂_entry text fun inst (h : inst ∈ Instruction.leading insts) =>
    Instruction.not_from_of_mem_leading h
  have hruns : List.Forall₂ (Shows text)
      ((Instruction.runs insts).flatMap fun run => runEntry text run :: run.2.map (entry text))
      ((Instruction.runs insts).flatMap fun run => run.1 :: run.2) := by
    refine forall₂_flatMap fun run hrun => ?_
    obtain ⟨hfrom, hmembers⟩ := Instruction.runs_spec hrun
    exact .cons (shows_runEntry text hfrom) (forall₂_entry text hmembers)
  rw [entries_tree]
  conv => rhs; rw [Instruction.eq_runs insts]
  exact List.rel_append hleading hruns

/-! ## Ranges -/

theorem run_sublist {insts : List Instruction} {run : Instruction × List Instruction}
    (h : run ∈ Instruction.runs insts) : (run.1 :: run.2).Sublist insts := by
  induction insts with
  | nil => cases h
  | cons inst rest ih =>
      cases hfrom : inst.isKind .FROM with
      | false => exact (ih (by rwa [Instruction.runs_cons hfrom] at h)).cons _
      | true =>
          rw [Instruction.runs_cons_from hfrom] at h
          rcases List.mem_cons.mp h with rfl | h
          · exact (List.takeWhile_sublist _).cons_cons inst
          · exact (ih h).cons _

theorem exists_front (run : Instruction × List Instruction) :
    ∃ front, run.1 :: run.2 = front ++ [lastOf run] :=
  List.getLast?_eq_some_iff.mp List.getLast?_cons

theorem runSpan_holds {run : Instruction × List Instruction}
    (hapart : (run.1 :: run.2).Pairwise Before)
    (hordered : ∀ i ∈ run.1 :: run.2, i.span.start ≤ i.span.stop) {inst : Instruction}
    (h : inst ∈ run.1 :: run.2) :
    (runSpan run).start ≤ inst.span.start ∧ inst.span.stop ≤ (runSpan run).stop := by
  have hfirst := hordered run.1 List.mem_cons_self
  have hself := hordered inst h
  obtain ⟨front, hfront⟩ := exists_front run
  have hlast := hordered (lastOf run) (by rw [hfront]; simp)
  constructor
  · rcases List.mem_cons.mp h with rfl | h
    · exact Nat.le_refl _
    · exact Nat.le_trans hfirst (Nat.le_of_lt ((List.pairwise_cons.mp hapart).1 inst h))
  · rw [hfront] at hapart h
    rcases List.mem_append.mp h with h | h
    · have := (List.pairwise_append.mp hapart).2.2 inst h _ List.mem_cons_self
      exact Nat.le_trans (Nat.le_of_lt this) hlast
    · rw [List.mem_singleton.mp h]
      exact Nat.le_refl _

def InFront (a b : OutlineEntry) : Prop :=
  a.range.stop.before b.range.start = true

end Outline

namespace Instruction

/-- The name that the instruction gives to a stage is its last argument, and it ends with a blank:
one that a quote or the escape character protects. -/
def EndsWithBlankName (inst : Instruction) : Prop :=
  ∃ image as name, inst.positional = [image, as, name] ∧ Check.isAs as = true ∧
    ∃ c ∈ name.text.getLast?, isBlank c = true

theorem exists_flags (inst : Instruction) : ∃ front, inst.arguments = front ++ inst.positional := by
  unfold positional
  split
  · exact ⟨_, (List.takeWhile_append_dropWhile (p := Flag.isFlag)).symm⟩
  · exact ⟨[], rfl⟩

theorem declaredName?_eq_some {inst : Instruction} {e : Excerpt}
    (h : Stage.declaredName? inst = some e) :
    ∃ image as name rest, inst.positional = image :: as :: name :: rest ∧ Check.isAs as = true ∧
      name.content = e := by
  unfold Stage.declaredName? at h
  split at h
  · rename_i image as name rest hargs
    split at h
    · rename_i has
      exact ⟨image, as, name, rest, hargs, has, Option.some.inj h⟩
    · cases h
  · cases h

theorem declaredName?_of_positional {inst : Instruction} {image as name : Argument}
    {rest : List Argument} (h : inst.positional = image :: as :: name :: rest)
    (has : Check.isAs as = true) : Stage.declaredName? inst = some name.content := by
  unfold Stage.declaredName?
  rw [h]
  exact if_pos has

end Instruction

namespace File

open Outline

variable {text : Text} {inst other : Instruction} (hinst : inst ∈ (parse text).instructions)
include hinst

theorem selected_spec : (selected inst).Within text ∧ (selected inst).chars ≠ [] ∧
    (selected inst).chars ⊆ inst.chars := by
  have hwithin := instruction_within hinst
  unfold selected
  cases hname : Stage.declaredName? inst with
  | none =>
      refine ⟨hwithin.keyword, fun hnil => ?_, List.subset_append_left _ _⟩
      have hnamed := isNamed_of_mem hinst
      simp only [Option.getD_none] at hnil
      simp [Instruction.isNamed, Excerpt.isEmpty, hnil] at hnamed
  | some e =>
      obtain ⟨image, as, name, rest, hargs, -, rfl⟩ := Instruction.declaredName?_eq_some hname
      obtain ⟨front, hfront⟩ := inst.exists_flags
      have hmem : name ∈ inst.arguments := by rw [hfront, hargs]; simp
      obtain ⟨p, tail, hchars, -⟩ := Argument.exists_head_of_splitFrom hmem
      refine ⟨hwithin.argument hmem, by rw [Option.getD_some, hchars]; exact List.cons_ne_nil _ _, ?_⟩
      exact List.Subset.trans (Argument.infix_of_mem_splitFrom hmem).subset
        (List.subset_append_right _ _)

theorem selectable_selected : (selected inst).span.Selectable text :=
  have h := selected_spec hinst
  selectable_of_chars hinst h.1 h.2.1 h.2.2

theorem exists_selected_stop : ∃ p ∈ inst.chars, (selected inst).span.stop = p.stop := by
  obtain ⟨hwithin, hne, hchars⟩ := selected_spec hinst
  refine ⟨_, hchars (List.getLast_mem hne), ?_⟩
  exact Excerpt.span_stop_of_getLast? ((Text.pairwise_place 0 text).sublist hwithin.chars)
    (List.getLast?_eq_some_getLast hne)

theorem span_start_le_selected : inst.span.start ≤ (selected inst).span.start := by
  obtain ⟨-, hne, hchars⟩ := selected_spec hinst
  obtain ⟨p, rest, hcons⟩ := List.exists_cons_of_ne_nil hne
  have hstart : (selected inst).span.start = p.offset := by
    simp only [Excerpt.span, Excerpt.start, hcons, Placed.startOr_cons]
  rw [hstart]
  exact Instruction.keywordSpan_start_le (instruction_within hinst) (isNamed_of_mem hinst)
    (hchars (hcons ▸ List.mem_cons_self))

/-- What is selected ends in the instruction, unless that is a name with a blank at its end. -/
theorem selected_stop_le_iff :
    (selected inst).span.stop ≤ inst.span.stop ↔ ¬inst.EndsWithBlankName := by
  have hwithin := instruction_within hinst
  have hnamed := isNamed_of_mem hinst
  obtain ⟨front, hfront⟩ := inst.exists_flags
  cases hname : Stage.declaredName? inst with
  | none =>
      rw [selected, hname, Option.getD_none]
      refine iff_of_true hwithin.mapped.keyword_inside.2 ?_
      rintro ⟨image, as, name, hargs, has, -⟩
      rw [Instruction.declaredName?_of_positional hargs has] at hname
      cases hname
  | some e =>
      obtain ⟨image, as, name, rest, hargs, has, rfl⟩ := Instruction.declaredName?_eq_some hname
      rw [selected, hname, Option.getD_some]
      have hsplit : inst.arguments = (front ++ [image, as]) ++ name :: rest := by
        rw [hfront, hargs, List.append_assoc]
        rfl
      constructor
      · rintro hle ⟨image', as', name', hargs', -, c, hc, hblank⟩
        rw [hargs] at hargs'
        obtain ⟨rfl, rfl, rfl, rfl⟩ : image = image' ∧ as = as' ∧ name = name' ∧ rest = [] := by
          simpa using hargs'
        obtain ⟨q, hq, rfl⟩ := Option.map_eq_some_iff.mp
          (List.getLast?_map.symm.trans (Option.mem_def.mp hc))
        exact absurd hle (Nat.not_le.mpr (Instruction.span_stop_lt hwithin hnamed hsplit hq hblank))
      · intro hnot
        refine Instruction.argument_stop_le hwithin hnamed hsplit ?_
        by_cases hrest : rest = []
        · right
          intro q hq
          cases hblank : isBlank q.char with
          | false => rfl
          | true =>
              refine absurd ⟨image, as, name, ?_, has, q.char, ?_, hblank⟩ hnot
              · rw [hargs, hrest]
              · rw [Argument.text, Excerpt.text, Placed.text, List.getLast?_map,
                  Option.mem_def.mp hq]
                rfl
        · exact .inl hrest

theorem selected_stop_lt (hother : other ∈ (parse text).instructions)
    (h : ∀ p ∈ inst.chars, ∀ q ∈ other.chars, p.stop < q.offset) :
    (selected inst).span.stop < other.span.start := by
  obtain ⟨p, hp, hstop⟩ := exists_selected_stop hinst
  obtain ⟨q, hq, hstart⟩ := Instruction.keywordSpan_start (isNamed_of_mem hother)
  rw [hstop]
  exact Nat.lt_of_lt_of_eq (h p hp q (List.mem_append_left _ hq)) hstart.symm

/-- Instructions in order have ranges in order. -/
theorem positions_before (hother : other ∈ (parse text).instructions) (h : Before inst other) :
    (Text.positionAt text inst.span.stop).before (Text.positionAt text other.span.start) = true := by
  have ha := selectable_span hinst
  have hb := selectable_span hother
  exact Text.positionAt_before h ha.placed.stop_boundary hb.placed.start_boundary ha.stop hb.start

end File

namespace Outline

section Runs

variable {text : Text} {run : Instruction × List Instruction}
  (hrun : run ∈ Instruction.runs (File.parse text).instructions)
include hrun

theorem mem_of_mem_run {inst : Instruction} (h : inst ∈ run.1 :: run.2) :
    inst ∈ (File.parse text).instructions :=
  (run_sublist hrun).mem h

theorem run_holds {inst : Instruction} (h : inst ∈ run.1 :: run.2) :
    (runSpan run).start ≤ inst.span.start ∧ inst.span.stop ≤ (runSpan run).stop := by
  refine runSpan_holds ((File.parse_separated text).sublist (run_sublist hrun)) (fun i hi => ?_) h
  exact (File.instruction_within (mem_of_mem_run hrun hi)).span.ordered

/-- The name of a stage lies in its stage, unless the stage ends with it and it ends with a blank. -/
theorem runEntry_selection :
    (runEntry text run).selection.inside (runEntry text run).range = true ↔
      ¬(run.2 = [] ∧ run.1.EndsWithBlankName) := by
  have hinst := mem_of_mem_run hrun (List.mem_cons_self (a := run.1))
  have hstart := File.span_start_le_selected hinst
  have hiff : (runEntry text run).selection.inside (runEntry text run).range = true ↔
      (selected run.1).span.stop ≤ (runSpan run).stop := by
    refine ⟨fun hinside => ?_, fun hstop => Text.rangeOf_inside text hstart hstop⟩
    by_contra hlt
    obtain ⟨front, hfront⟩ := exists_front run
    have hlast := mem_of_mem_run hrun (show lastOf run ∈ run.1 :: run.2 by rw [hfront]; simp)
    have hspan := File.selectable_span hlast
    have hselected := File.selectable_selected hinst
    have hbefore := Text.positionAt_before (Nat.not_le.mp hlt) hspan.placed.stop_boundary
      hselected.placed.stop_boundary hspan.stop hselected.stop
    have hnot : (!(Text.positionAt text (runSpan run).stop).before
        (Text.positionAt text (selected run.1).span.stop)) = true :=
      (Bool.and_eq_true_iff.mp hinside).2
    rw [hbefore] at hnot
    cases hnot
  rw [hiff]
  cases hmembers : run.2 with
  | nil =>
      have hlast : (runSpan run).stop = run.1.span.stop := by
        rw [runSpan, lastOf, hmembers]
        rfl
      rw [hlast, File.selected_stop_le_iff hinst]
      simp
  | cons next members =>
      refine iff_of_true ?_ (by simp)
      have hnext : next ∈ run.1 :: run.2 := by rw [hmembers]; simp
      have hseparated := (File.instructions_separated text).sublist (run_sublist hrun)
      rw [hmembers] at hseparated
      have hlt := File.selected_stop_lt hinst (mem_of_mem_run hrun hnext)
        ((List.pairwise_cons.mp hseparated).1 next List.mem_cons_self)
      have hordered := (File.instruction_within (mem_of_mem_run hrun hnext)).span.ordered
      exact Nat.le_trans (Nat.le_of_lt hlt)
        (Nat.le_trans hordered (run_holds hrun hnext).2)

end Runs

/-- The outline of instructions is a faithful tree: its nodes are the instructions in front of the
first `FROM` and the runs behind, and all ranges but the selection of some stages are nested. -/
structure Faithful (text : Text) (insts : List Instruction) (outline : List OutlineNode) : Prop where
  tree : outline = tree text insts
  preorder : List.Forall₂ (Shows text) (outline.flatMap OutlineNode.entries) insts
  ranges : ∀ e ∈ outline.flatMap OutlineNode.entries, e.range.stop.before e.range.start = false
  children : ∀ node ∈ outline, ∀ child ∈ node.children,
    child.range.inside node.entry.range = true
  nodes_in_order : (outline.map OutlineNode.entry).Pairwise InFront
  children_in_order : ∀ node ∈ outline, node.children.Pairwise InFront
  selection : ∀ inst ∈ insts, (entry text inst).selection.inside (entry text inst).range = true
  stage_selection : ∀ run ∈ Instruction.runs insts,
    (runEntry text run).selection.inside (runEntry text run).range = true ↔
      ¬(run.2 = [] ∧ run.1.EndsWithBlankName)

section Files

variable (text : Text)

theorem mem_of_mem_leading {text : Text} {inst : Instruction}
    (h : inst ∈ Instruction.leading (File.parse text).instructions) :
    inst ∈ (File.parse text).instructions :=
  (List.takeWhile_sublist _).mem h

theorem runs_in_order :
    (Instruction.leading (File.parse text).instructions).Pairwise Before ∧
      ((Instruction.runs (File.parse text).instructions).Pairwise fun a b =>
        ∀ x ∈ a.1 :: a.2, ∀ y ∈ b.1 :: b.2, Before x y) ∧
      ∀ x ∈ Instruction.leading (File.parse text).instructions,
        ∀ run ∈ Instruction.runs (File.parse text).instructions, Before x run.1 := by
  have hall := File.parse_separated text
  rw [Instruction.eq_runs (File.parse text).instructions] at hall
  obtain ⟨hleading, hruns, hboth⟩ := List.pairwise_append.mp hall
  refine ⟨hleading, (List.pairwise_flatMap.mp hruns).2, fun x hx run hrun => ?_⟩
  exact hboth x hx run.1 (List.mem_flatMap.mpr ⟨run, hrun, List.mem_cons_self⟩)

theorem nodes_in_order :
    ((tree text (File.parse text).instructions).map OutlineNode.entry).Pairwise InFront := by
  obtain ⟨hleading, hruns, hboth⟩ := runs_in_order text
  rw [tree, List.map_append, List.map_map, List.map_map]
  refine List.pairwise_append.mpr ⟨?_, ?_, ?_⟩
  · refine List.pairwise_map.mpr (hleading.imp_of_mem fun ha hb hab => ?_)
    exact File.positions_before (mem_of_mem_leading ha) (mem_of_mem_leading hb) hab
  · refine List.pairwise_map.mpr (hruns.imp_of_mem fun {a b} ha hb hab => ?_)
    obtain ⟨front, hfront⟩ := exists_front a
    have hlast : lastOf a ∈ a.1 :: a.2 := by rw [hfront]; simp
    exact File.positions_before (mem_of_mem_run ha hlast) (mem_of_mem_run hb List.mem_cons_self)
      (hab _ hlast _ List.mem_cons_self)
  · intro e he e' he'
    obtain ⟨inst, hinst, rfl⟩ := List.mem_map.mp he
    obtain ⟨run, hrun, rfl⟩ := List.mem_map.mp he'
    exact File.positions_before (mem_of_mem_leading hinst) (mem_of_mem_run hrun List.mem_cons_self)
      (hboth inst hinst run hrun)

theorem children_in_order (node : OutlineNode)
    (h : node ∈ tree text (File.parse text).instructions) : node.children.Pairwise InFront := by
  rcases List.mem_append.mp h with h | h
  · obtain ⟨inst, -, rfl⟩ := List.mem_map.mp h
    exact .nil
  · obtain ⟨run, hrun, rfl⟩ := List.mem_map.mp h
    have hmem : ∀ inst ∈ run.2, inst ∈ (File.parse text).instructions := fun inst hi =>
      mem_of_mem_run hrun (List.mem_cons_of_mem _ hi)
    have hpairs := (File.parse_separated text).sublist (run_sublist hrun)
    refine List.pairwise_map.mpr ((List.pairwise_cons.mp hpairs).2.imp_of_mem fun ha hb hab => ?_)
    exact File.positions_before (hmem _ ha) (hmem _ hb) hab

theorem children_inside (node : OutlineNode)
    (h : node ∈ tree text (File.parse text).instructions) {child : OutlineEntry}
    (hchild : child ∈ node.children) : child.range.inside node.entry.range = true := by
  rcases List.mem_append.mp h with h | h
  · obtain ⟨inst, -, rfl⟩ := List.mem_map.mp h
    cases hchild
  · obtain ⟨run, hrun, rfl⟩ := List.mem_map.mp h
    obtain ⟨inst, hinst, rfl⟩ := List.mem_map.mp hchild
    have hholds := run_holds hrun (List.mem_cons_of_mem _ hinst)
    exact Text.rangeOf_inside text hholds.1 hholds.2

theorem entries_ordered {e : OutlineEntry}
    (h : e ∈ (tree text (File.parse text).instructions).flatMap OutlineNode.entries) :
    e.range.stop.before e.range.start = false := by
  have hentry : ∀ inst ∈ (File.parse text).instructions,
      (entry text inst).range.stop.before (entry text inst).range.start = false := fun inst hinst =>
    Text.positionAt_mono text (File.instruction_within hinst).span.ordered
  rw [entries_tree] at h
  rcases List.mem_append.mp h with h | h
  · obtain ⟨inst, hinst, rfl⟩ := List.mem_map.mp h
    exact hentry inst (mem_of_mem_leading hinst)
  · obtain ⟨run, hrun, h⟩ := List.mem_flatMap.mp h
    rcases List.mem_cons.mp h with rfl | h
    · have hfirst := List.mem_cons_self (a := run.1) (l := run.2)
      have hordered := (File.instruction_within (mem_of_mem_run hrun hfirst)).span.ordered
      exact Text.positionAt_mono text (Nat.le_trans hordered (run_holds hrun hfirst).2)
    · obtain ⟨inst, hinst, rfl⟩ := List.mem_map.mp h
      exact hentry inst (mem_of_mem_run hrun (List.mem_cons_of_mem _ hinst))

end Files

end Outline

/-- The outline of every file is a faithful tree. -/
theorem Analysis.outline_faithful (text : Text) (settings : Settings) :
    Outline.Faithful text (analyze text settings).file.instructions
      (analyze text settings).outline := by
  rw [Outline.outline_eq_tree]
  show Outline.Faithful text (File.parse text).instructions _
  exact {
    tree := rfl
    preorder := Outline.tree_preorder text _
    ranges := fun e he => Outline.entries_ordered text he
    children := fun node hnode child hchild => Outline.children_inside text node hnode hchild
    nodes_in_order := Outline.nodes_in_order text
    children_in_order := Outline.children_in_order text
    selection := fun inst hinst =>
      have hinside := (File.instruction_within hinst).mapped.keyword_inside
      Text.rangeOf_inside text hinside.1 hinside.2
    stage_selection := fun run hrun => Outline.runEntry_selection hrun }

/-- The quote is not closed, so the blank behind it belongs to the name of the stage, but not to the
range of the instruction. -/
theorem Analysis.outline_selection_outside :
    ¬∀ (text : Text) (settings : Settings),
      ∀ e ∈ (analyze text settings).outline.flatMap OutlineNode.entries,
        e.selection.inside e.range = true := by
  intro h
  have hinside := h "FROM a AS \"b ".toList {}
  revert hinside
  decide +kernel

end Dockerfile
