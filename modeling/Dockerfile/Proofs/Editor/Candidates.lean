import Dockerfile.Editor.Highlighting
import Dockerfile.Proofs.Check.Places
import Dockerfile.Proofs.Check.Repetition
import Dockerfile.Proofs.File.Ends
import Dockerfile.Proofs.Scope.Tables

/-!
# Candidates for tokens

Tokens are looked for in seven places: directives, keywords, stages, variables, flags, quotes and
comments. Whatever is found stands in the text, with both ends at boundaries of characters
(`Token.candidates_within`).
-/

namespace Dockerfile

namespace Excerpt

variable {text : Text} {e : Excerpt}

/-- The place of characters does not depend on where an empty excerpt would stand. -/
theorem wellPlaced_of_sublist (h : e.chars.Sublist (Text.place 0 text)) (hne : e.chars ≠ []) :
    e.span.WellPlaced text := by
  have hwithin : (⟨e.chars, 0⟩ : Excerpt).Within text :=
    ⟨h, Text.isBoundary_append [] text⟩
  have hplaced := hwithin.span
  obtain ⟨p, rest, hcons⟩ := List.exists_cons_of_ne_nil hne
  have hlast := List.getLast?_eq_some_getLast hne
  have hp : e.chars.head? = some p := by rw [hcons]; rfl
  rw [span_eq_spanTo (e := ⟨e.chars, 0⟩) hp hlast] at hplaced
  rwa [span_eq_spanTo hp hlast]

theorem start_le_part (ordered : e.chars.Pairwise fun p q => p.stop ≤ q.offset)
    {kept rest : List Placed} (hkept : kept ⊆ e.chars) (hrest : rest ⊆ e.chars) :
    e.start ≤ (e.part kept rest).start := by
  have hmem : ∀ p ∈ e.chars, e.start ≤ p.offset := by
    intro p hp
    unfold start
    cases hchars : e.chars with
    | nil => rw [hchars] at hp; cases hp
    | cons first chars =>
        rw [hchars] at hp ordered
        rcases List.mem_cons.mp hp with rfl | hp
        · exact Nat.le_refl _
        · have := (List.pairwise_cons.mp ordered).1 p hp
          have := first.offset_lt_stop
          rw [Placed.startOr_cons]
          omega
  have hstop : e.start ≤ e.stop := by
    cases hlast : e.chars.getLast? with
    | none =>
        have hnil : e.chars = [] := List.getLast?_eq_none_iff.mp hlast
        simp [start, stop, Placed.stopOr, hnil]
    | some q =>
        have := hmem q (List.mem_of_getLast? hlast)
        have := q.offset_lt_stop
        simp only [stop, Placed.stopOr, hlast]
        omega
  cases kept with
  | cons p kept => exact hmem p (hkept List.mem_cons_self)
  | nil =>
      cases rest with
      | nil => exact hstop
      | cons q rest => exact hmem q (hrest List.mem_cons_self)

end Excerpt

/-! ## Substitutions -/

namespace Substitution

/-- A substitution is a stretch of what is scanned, from its dollar sign on. -/
theorem whole_of_mem_scanFrom {escape : Char} {quoted : Bool} {chars : List Placed}
    {s : Substitution} (h : s ∈ scanFrom escape quoted chars) :
    s.whole ≠ [] ∧ s.whole.Sublist chars := by
  fun_induction scanFrom escape quoted chars with
  | case1 => cases h
  | case2 p rest ih => exact ⟨(ih h).1, (ih h).2.cons _⟩
  | case3 quoted p rest _ _ ih =>
      exact ⟨(ih h).1, ((ih h).2.trans (List.tail_sublist _)).cons _⟩
  | case4 quoted p rest _ _ _ ih => exact ⟨(ih h).1, (ih h).2.cons _⟩
  | case5 => cases h
  | case6 quoted p _ _ _ _ q body _ name cut whole ih ih' =>
      have hbody : name ++ (cut.1 ++ cut.2) = body := by
        rw [splitClosing_append, List.takeWhile_append_dropWhile]
      have hcut : (cut.1 ++ cut.2).Sublist (p :: q :: body) := by
        rw [← hbody]
        exact ((List.sublist_append_right _ _).cons _).cons _
      rcases List.mem_append.mp h with h | h
      · rcases List.mem_append.mp h with h | h
        · split at h
          · rw [List.mem_singleton.mp h]
            refine ⟨by simp [whole], ?_⟩
            show (p :: q :: name ++ cut.1 ++ cut.2.take 1).Sublist (p :: q :: body)
            rw [List.append_assoc, ← hbody]
            exact ((((List.take_sublist _ _).append_left _).append_left _).cons_cons _).cons_cons _
          · cases h
        · exact ⟨(ih h).1, (ih h).2.trans ((List.sublist_append_left _ _).trans hcut)⟩
      · exact ⟨(ih' h).1, ((ih' h).2.trans (List.tail_sublist _)).trans
          ((List.sublist_append_right _ _).trans hcut)⟩
  | case7 quoted p _ _ _ _ q body _ _ name ih =>
      rcases List.mem_cons.mp h with rfl | h
      · exact ⟨by simp, (List.takeWhile_sublist _).cons_cons _⟩
      · exact ⟨(ih h).1, ((ih h).2.trans (List.dropWhile_sublist _)).cons _⟩
  | case8 quoted p _ _ _ _ q body _ _ ih => exact ⟨(ih h).1, (ih h).2.cons _⟩
  | case9 quoted p rest _ _ _ _ ih => exact ⟨(ih h).1, (ih h).2.cons _⟩

end Substitution

namespace Token

def Within (text : Text) (tokens : List Token) : Prop :=
  ∀ t ∈ tokens, t.span.WellPlaced text

section Lists

variable {text : Text}

theorem within_nil : Within text [] := by
  intro t ht
  cases ht

theorem within_singleton {span : Span} {type : TokenType} {modifier : TokenModifier}
    (h : span.WellPlaced text) : Within text [⟨span, type, modifier⟩] := by
  intro t ht
  rwa [List.mem_singleton.mp ht]

theorem within_map {α : Type} {xs : List α} {span : α → Span} {type : TokenType}
    {modifier : TokenModifier} (h : ∀ x ∈ xs, (span x).WellPlaced text) :
    Within text (xs.map fun x => ⟨span x, type, modifier⟩) := by
  intro t ht
  obtain ⟨x, hx, rfl⟩ := List.mem_map.mp ht
  exact h x hx

theorem Within.append {a b : List Token} (ha : Within text a) (hb : Within text b) :
    Within text (a ++ b) := by
  intro t ht
  rcases List.mem_append.mp ht with ht | ht
  · exact ha t ht
  · exact hb t ht

theorem within_flatMap {α : Type} {xs : List α} {tokens : α → List Token}
    (h : ∀ x ∈ xs, Within text (tokens x)) : Within text (xs.flatMap tokens) := by
  intro t ht
  obtain ⟨x, hx, ht⟩ := List.mem_flatMap.mp ht
  exact h x hx t ht

end Lists

section Instructions

variable {text : Text} {inst : Instruction}

theorem ofKeywords_within (h : inst.Within text) : Within text (ofKeywords inst) := by
  fun_induction ofKeywords inst with
  | case1 => exact within_nil
  | case2 inst k _ own deferred words ih =>
      have hpositional : ∀ arg ∈ inst.positional, arg.span.WellPlaced text := fun arg harg =>
        (h.positional harg).span
      refine .append (.append (within_singleton h.keyword.span) ?_) ?_
      · show Within text deferred
        simp only [deferred]
        split
        · rename_i trigger htrigger
          exact ih trigger htrigger (h.trigger htrigger)
        · exact within_nil
      · show Within text words
        simp only [words]
        split
        · rename_i hargs _
          rw [hargs] at hpositional
          split
          · exact within_singleton (hpositional _ (by simp))
          · exact within_nil
        · rename_i hargs _
          rw [hargs] at hpositional
          split
          · exact within_singleton (hpositional _ List.mem_cons_self)
          · exact within_nil
        · exact within_nil

theorem quotedSpans_within {e : Excerpt} (h : e.Within text) {opened : Option Placed}
    (hopened : ∀ q ∈ opened, q ∈ e.chars) {chars : List Placed} (hchars : chars ⊆ e.chars)
    {span : Span} (hspan : span ∈ quotedSpans e.stop opened chars) : span.WellPlaced text := by
  have htail : ∀ {p : Placed} {rest : List Placed}, p :: rest ⊆ e.chars → rest ⊆ e.chars :=
    fun hsub _ hq => hsub (List.mem_cons_of_mem _ hq)
  fun_induction quotedSpans e.stop opened chars with
  | case1 q =>
      rw [List.mem_singleton.mp hspan]
      have hboundary := (Text.isBoundary_of_mem_place (h.chars.mem (hopened q rfl))).1
      exact .of_boundaries (Nat.le_max_right _ _) hboundary
        (Text.isBoundary_max h.stop_boundary hboundary)
  | case2 => cases hspan
  | case3 p rest q _ ih =>
      rcases List.mem_cons.mp hspan with rfl | hspan
      · exact h.spanTo (hopened q rfl) (hchars List.mem_cons_self)
      · exact ih (by simp) (htail hchars) hspan
  | case4 p rest q _ ih => exact ih hopened (htail hchars) hspan
  | case5 p rest _ ih =>
      refine ih ?_ (htail hchars) hspan
      rintro q ⟨⟩
      exact hchars List.mem_cons_self
  | case6 p rest _ ih => exact ih (by simp) (htail hchars) hspan

/-- A flag with its dashes, without its value. -/
theorem flag_within (h : inst.Within text) {f : Flag} (hf : f ∈ inst.flags) :
    (⟨f.span.start, f.name.span.stop⟩ : Span).WellPlaced text := by
  obtain ⟨hname, -, hspan⟩ := h.flag hf
  obtain ⟨arg, harg, index, hflag⟩ := Instruction.exists_argument_of_mem_flags hf
  refine .of_boundaries ?_ hspan.start_boundary hname.span.stop_boundary
  have hordered : arg.content.chars.Pairwise fun p q => p.stop ≤ q.offset :=
    (Text.pairwise_place 0 text).sublist (h.argument harg).chars
  let body := arg.content.part (arg.content.chars.drop 2) []
  have hbody : arg.content.start ≤ body.start :=
    Excerpt.start_le_part hordered (List.drop_subset _ _) (List.nil_subset _)
  have hcut : body.start ≤ body.cutAtEquals.1.start := by
    have hordered' : body.chars.Pairwise fun p q => p.stop ≤ q.offset :=
      hordered.sublist (List.drop_sublist 2 _)
    have hafter := List.dropWhile_subset (fun p : Placed => p.char != '=') (l := body.chars)
    unfold Excerpt.cutAtEquals
    split
    · exact Excerpt.start_le_part hordered' (List.takeWhile_subset _) (List.nil_subset _)
    · rename_i heq
      exact Excerpt.start_le_part hordered' (List.takeWhile_subset _) (heq ▸ hafter)
  unfold Flag.ofArgument? at hflag
  split at hflag
  · cases hflag
    exact Nat.le_trans hbody (Nat.le_trans hcut (Nat.le_max_right _ _))
  · cases hflag

theorem ofArguments_within (h : inst.Within text) : Within text (ofArguments inst) := by
  refine .append (within_map fun f hf => flag_within h hf) (within_flatMap fun arg harg => ?_)
  exact within_map fun span hspan =>
    quotedSpans_within (h.argument harg) (by simp) (List.Subset.refl _) hspan

theorem use_within (h : inst.Within text) {s : Substitution} (hs : s ∈ inst.uses) :
    s.span.WellPlaced text := by
  obtain ⟨piece, hpiece, hs⟩ := List.mem_flatMap.mp hs
  obtain ⟨arg, harg, htail⟩ := Instruction.exists_argument_of_piece hpiece
  obtain ⟨hne, hsub⟩ := Substitution.whole_of_mem_scanFrom hs
  refine Excerpt.wellPlaced_of_sublist (e := ⟨s.whole, 0⟩) ?_ hne
  exact hsub.trans (htail.sublist.trans ((Argument.infix_of_mem_splitFrom harg).sublist.trans
    (inst.effective_region_suffix.sublist.trans h.region.chars)))

theorem declared_within (h : inst.Within text) {p : Property} (hp : p ∈ inst.declared) :
    p.name.span.WellPlaced text := by
  obtain ⟨-, hne, -⟩ := Instruction.mem_properties_of_mem_declared hp
  obtain ⟨arg, harg, hpart⟩ := Instruction.exists_argument_of_declared hp
  exact Excerpt.wellPlaced_of_sublist (hpart.sublist.trans (h.argument harg).chars) hne

theorem stageReference_within {stages : List Stage} {site : Site}
    (h : site.instruction.Within text) {r : StageReference}
    (hr : r ∈ StageReference.ofSite stages site) : r.span.WellPlaced text := by
  unfold StageReference.ofSite at hr
  dsimp only at hr
  split at hr
  · split at hr
    · cases hr
    · rename_i image himage
      split at hr
      · cases hr
      · rw [List.mem_singleton.mp hr]
        exact (h.positional (List.mem_of_mem_head? himage)).span
  · split at hr
    · obtain ⟨f, hf, hr⟩ := List.mem_filterMap.mp hr
      split at hr
      · split at hr
        · rename_i value hvalue
          split at hr
          · cases hr
          · cases hr
            exact ((h.flag hf).2.1 value hvalue).span
        · cases hr
      · cases hr
    · cases hr

end Instructions

theorem candidates_within (text : Text) (settings : Settings) :
    Within text (candidates (analyze text settings)) := by
  have hinst : ∀ inst ∈ (File.parse text).instructions, inst.Within text := fun inst hinst =>
    File.instruction_within hinst
  have hsite : ∀ site ∈ (ScopeTable.ofFile (File.parse text)).sites,
      site.instruction.Within text := fun site h => hinst _ (Site.instruction_mem h)
  refine .append (.append (.append (.append (.append (.append (.append ?_ ?_) ?_) ?_) ?_) ?_) ?_) ?_
  · refine within_flatMap fun d hd => ?_
    have hwithin := Directive.readAll_within hd
    exact .append (within_singleton hwithin.name.span) (within_singleton hwithin.value)
  · exact within_flatMap fun inst h => ofKeywords_within (hinst inst h)
  · exact within_map fun name hname => (File.name_within hname).1.span
  · refine within_map fun r hr => ?_
    obtain ⟨site, h, hr⟩ := List.mem_flatMap.mp hr
    exact stageReference_within (hsite site h) hr
  · refine within_map fun b hb => ?_
    obtain ⟨site, h, hb⟩ := List.mem_flatMap.mp hb
    rw [Binding.ofSite_eq] at hb
    obtain ⟨p, hp, rfl⟩ := List.mem_map.mp hb
    exact declared_within (hsite site h) hp
  · refine within_map fun r hr => ?_
    obtain ⟨site, h, hr⟩ := List.mem_flatMap.mp hr
    rw [VariableReference.ofSite_eq] at hr
    obtain ⟨s, hs, rfl⟩ := List.mem_map.mp hr
    exact use_within (hsite site h) hs
  · exact within_flatMap fun inst h => ofArguments_within (hinst inst h)
  · refine within_map fun c hc => File.parse_spans ?_
    refine List.mem_append_left _ (List.mem_append_right _ (List.mem_flatMap.mpr ⟨c, ?_, ?_⟩))
    · exact (List.mem_filter.mp hc).1
    · exact List.mem_cons_self

end Token

end Dockerfile
