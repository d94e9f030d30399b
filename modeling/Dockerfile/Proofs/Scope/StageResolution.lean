import Dockerfile.Proofs.Scope.StageMentions

/-!
# Stages under a new name

A stage gets a name that no stage has, and so do the references to it, except those written in digits.
Other references stand for the stages they stood for. A reference to the stage itself is lost where
its spelling does not tell how it was resolved: digits that are the name of the stage are not renamed,
and a number with a sign is, also if the stage has no name (`Stage.target?_renamed`).
-/

namespace Dockerfile

namespace Stage

/-- The stage under its new name, if it is the one with this number and has a name. -/
structure Renamed (number : Nat) (new : Text) (s s' : Stage) : Prop where
  index : s'.index = s.index
  name : s'.name.map Excerpt.text =
    if s.index = number then s.name.map fun _ => new else s.name.map Excerpt.text

def first? (f : Stage → Bool) (stages : List Stage) : Option Nat :=
  (stages.find? f).map Stage.index

/-- Whether a reference to a stage stands for it after a renaming. Digits are not renamed: they must
not be the name of the stage, or be its number as well, where a copy may use it. Everything else is
renamed: the stage must have a name. -/
def Follows (stages : List Stage) (isFrom : Bool) (index : Nat) (name : Text) : Prop :=
  if name.all Char.isDigit then
    (∀ s ∈ stages, s.index = index → isNamed name s = false) ∨
      isFrom = false ∧ StageReference.number? name = some index ∧
        ∀ s ∈ stages, s.index ≠ index → isNamed name s = false
  else ∃ s ∈ stages, s.index = index ∧ s.name.isSome = true

instance (stages : List Stage) (isFrom : Bool) (index : Nat) (name : Text) :
    Decidable (Follows stages isFrom index name) :=
  inferInstanceAs (Decidable (if name.all Char.isDigit then _ else _))

theorem isNamed_eq (name : Text) (s : Stage) :
    isNamed name s = (s.name.map Excerpt.text).any fun own => Text.sameIgnoringCase own name := by
  rw [isNamed, Option.any_map]

/-! ## First stages -/

theorem exists_of_first? {f : Stage → Bool} {stages : List Stage} {index : Nat}
    (h : first? f stages = some index) : ∃ s ∈ stages, s.index = index ∧ f s = true := by
  obtain ⟨s, hs, hindex⟩ := Option.map_eq_some_iff.mp h
  exact ⟨s, List.mem_of_find?_eq_some hs, hindex, List.find?_some hs⟩

theorem first?_eq_none {f : Stage → Bool} {stages : List Stage} :
    first? f stages = none ↔ ∀ s ∈ stages, f s = false := by
  simp [first?]

theorem first?_except {f : Stage → Bool} {stages : List Stage} {index : Nat}
    (h : first? f stages ≠ some index) :
    first? (fun s => s.index != index && f s) stages = first? f stages := by
  induction stages with
  | nil => rfl
  | cons s stages ih =>
      unfold first? at h ih ⊢
      by_cases hs : f s = true
      · rw [List.find?_cons_of_pos hs] at h ⊢
        have hne : s.index ≠ index := fun hsame => h (congrArg some hsame)
        rw [List.find?_cons_of_pos (by simp [hs, hne])]
      · rw [List.find?_cons_of_neg hs] at h ⊢
        rw [List.find?_cons_of_neg (by simp [hs])]
        exact ih h

theorem first?_except_ne (f : Stage → Bool) (stages : List Stage) (index : Nat) :
    first? (fun s => s.index != index && f s) stages ≠ some index := by
  intro h
  obtain ⟨s, -, hindex, hs⟩ := exists_of_first? h
  simp [hindex] at hs

theorem first?_eq_some_iff {f : Stage → Bool} {stages : List Stage} {index : Nat} :
    first? (fun s => s.index == index && f s) stages = some index ↔
      ∃ s ∈ stages, s.index = index ∧ f s = true := by
  constructor
  · intro h
    obtain ⟨s, hs, hindex, hf⟩ := exists_of_first? h
    exact ⟨s, hs, hindex, (Bool.and_eq_true_iff.mp hf).2⟩
  · rintro ⟨s, hs, hindex, hf⟩
    cases h : first? (fun s => s.index == index && f s) stages with
    | none =>
        have hnone := first?_eq_none.mp h s hs
        simp [hindex, hf] at hnone
    | some found =>
        obtain ⟨t, -, rfl, ht⟩ := exists_of_first? h
        exact congrArg some (eq_of_beq (Bool.and_eq_true_iff.mp ht).1)

/-! ## Targets -/

def eligible (stages : List Stage) (site : Site) : List Stage :=
  if site.isFrom then stages.take site.scope.stageIndex else stages

def numbered? (stages : List Stage) (site : Site) (name : Text) : Option Nat :=
  if site.isFrom then none
  else (StageReference.number? name).filter fun index => index < stages.length

theorem eligible_subset (stages : List Stage) (site : Site) : eligible stages site ⊆ stages := by
  unfold eligible
  split
  · exact List.take_subset _ _
  · exact List.Subset.refl _

theorem target?_eq (stages : List Stage) (site : Site) (name : Text) :
    target? stages site name =
      (first? (isNamed name) (eligible stages site)).or (numbered? stages site name) := by
  unfold target? eligible numbered?
  split
  · exact (Option.or_none).symm
  · unfold StageReference.source? first?
    cases stages.find? (isNamed name) <;> rfl

/-! ## Renaming -/

section Renamed

variable {index : Nat} {new : Text}

theorem isNamed_renamed {s s' : Stage} (h : Renamed index new s s') {name : Text}
    (hname : Text.sameIgnoringCase name new = false) :
    isNamed name s' = (s.index != index && isNamed name s) := by
  have hsymm : Text.sameIgnoringCase new name = false := by
    rw [Text.sameIgnoringCase, Bool.beq_comm]
    exact hname
  rw [isNamed_eq, isNamed_eq, h.name]
  by_cases hindex : s.index = index
  · rw [if_pos hindex, hindex]
    cases s.name <;> simp [hsymm]
  · rw [if_neg hindex, bne_iff_ne.mpr hindex, Bool.true_and]

theorem isNamed_new {s s' : Stage} (h : Renamed index new s s') (hs : isNamed new s = false) :
    isNamed new s' = (s.index == index && s.name.isSome) := by
  rw [isNamed_eq] at hs ⊢
  rw [h.name]
  by_cases hindex : s.index = index
  · rw [if_pos hindex, hindex]
    cases s.name <;> simp [Text.sameIgnoringCase]
  · rw [if_neg hindex, beq_eq_false_iff_ne.mpr hindex, hs, Bool.false_and]

theorem first?_renamed {f g : Stage → Bool} {stages stages' : List Stage}
    (h : List.Forall₂ (Renamed index new) stages stages')
    (hfg : ∀ s ∈ stages, ∀ s', Renamed index new s s' → g s' = f s) :
    first? g stages' = first? f stages := by
  unfold first?
  induction h with
  | nil => rfl
  | @cons s s' stages stages' hs _ ih =>
      have ih := ih fun t ht => hfg t (List.mem_cons_of_mem _ ht)
      have hsame := hfg s List.mem_cons_self s' hs
      rw [List.find?_cons, List.find?_cons, hsame]
      split
      · exact congrArg some hs.index
      · exact ih

variable {stages stages' : List Stage} {site site' : Site} {name : Text}
  (h : List.Forall₂ (Renamed index new) stages stages') (hfrom : site'.isFrom = site.isFrom)
  (hscope : site'.scope = site.scope)

include h hfrom hscope

theorem eligible_renamed :
    List.Forall₂ (Renamed index new) (eligible stages site) (eligible stages' site') := by
  unfold eligible
  rw [hfrom, hscope]
  split
  · exact List.forall₂_take _ h
  · exact h

theorem target?_of_kept (hname : Text.sameIgnoringCase name new = false) :
    target? stages' site' name =
      (first? (fun s => s.index != index && isNamed name s) (eligible stages site)).or
        (numbered? stages site name) := by
  have hnumbered : numbered? stages' site' name = numbered? stages site name := by
    rw [numbered?, numbered?, hfrom, h.length_eq]
  rw [target?_eq, hnumbered, first?_renamed (eligible_renamed h hfrom hscope) fun s _ s' hs =>
    isNamed_renamed hs hname]

theorem target?_new (hstages : ∀ s ∈ stages, isNamed new s = false)
    (hnumber : StageReference.number? new = none) :
    target? stages' site' new = some index ↔
      ∃ s ∈ eligible stages site, s.index = index ∧ s.name.isSome = true := by
  have hnumbered : numbered? stages' site' new = none := by
    rw [numbered?, hnumber]
    split <;> rfl
  rw [target?_eq, hnumbered, Option.or_none, first?_renamed (eligible_renamed h hfrom hscope)
    fun s hs s' hrenamed => isNamed_new hrenamed (hstages s (eligible_subset _ _ hs))]
  exact first?_eq_some_iff

/-- Digits that stand for the stage are not renamed: they still do if they do not name the stage, or
also number it. -/
theorem target?_digits (hindex : ∀ s ∈ stages, s.index < stages.length)
    (hname : Text.sameIgnoringCase name new = false)
    (htarget : target? stages site name = some index) :
    target? stages' site' name = some index ↔
      (∀ s ∈ stages, s.index = index → isNamed name s = false) ∨
        site.isFrom = false ∧ StageReference.number? name = some index ∧
          ∀ s ∈ stages, s.index ≠ index → isNamed name s = false := by
  rw [target?_of_kept h hfrom hscope hname]
  rw [target?_eq] at htarget
  have hexcept := first?_except_ne (isNamed name) (eligible stages site) index
  by_cases hnamed : first? (isNamed name) (eligible stages site) = some index
  · obtain ⟨s, hs, hsame, hs'⟩ := exists_of_first? hnamed
    have hin := eligible_subset _ _ hs
    have hlt : index < stages.length := hsame ▸ hindex s hin
    have hnever : ¬ ∀ s ∈ stages, s.index = index → isNamed name s = false := fun hall => by
      simp [hall s hin hsame] at hs'
    rw [or_iff_right hnever]
    by_cases hsite : site.isFrom = true
    · rw [numbered?, if_pos hsite, Option.or_none]
      simp [hexcept, hsite]
    · rw [numbered?, if_neg hsite]
      rw [eligible, if_neg hsite] at hexcept ⊢
      have hnumber : (StageReference.number? name).filter (fun i => i < stages.length) = some index ↔
          StageReference.number? name = some index := by
        simp [Option.filter_eq_some_iff, hlt]
      have hother : first? (fun s => s.index != index && isNamed name s) stages = none ↔
          ∀ s ∈ stages, s.index ≠ index → isNamed name s = false := by
        simp [first?_eq_none]
      rw [← hother, Option.or_eq_some_iff, or_iff_right hexcept, hnumber, and_comm]
      simp [hsite]
  · -- The digits are a number, and name no stage.
    have hnone : first? (isNamed name) (eligible stages site) = none ∧
        numbered? stages site name = some index := by
      simpa [Option.or_eq_some_iff, hnamed] using htarget
    have hsite : ¬ site.isFrom = true := fun hsite => by
      rw [numbered?, if_pos hsite] at hnone
      cases hnone.2
    rw [first?_except hnamed, htarget]
    rw [eligible, if_neg hsite, first?_eq_none] at hnone
    exact iff_of_true rfl (.inl fun s hs _ => hnone.1 s hs)

/-- A source stands for the stage that it stood for, unless that is the renamed one and its spelling
does not tell how it was resolved. -/
theorem target?_renamed (hstages : ∀ s ∈ stages, isNamed new s = false)
    (hnumber : StageReference.number? new = none) (hindex : ∀ s ∈ stages, s.index < stages.length)
    (hname : Text.sameIgnoringCase name new = false) :
    target? stages' site'
        (if target? stages site name == some index && !name.all Char.isDigit then new else name) =
      target? stages site name ↔
    (target? stages site name = some index → Follows stages site.isFrom index name) := by
  by_cases htarget : target? stages site name = some index
  · rw [htarget, beq_self_eq_true, Bool.true_and, Follows, forall_prop_of_true rfl]
    by_cases hdigits : name.all Char.isDigit = true
    · rw [hdigits, if_neg (by simp), if_pos rfl, target?_digits h hfrom hscope hindex hname htarget]
    · rw [if_pos (by simpa using hdigits), if_neg hdigits, target?_new h hfrom hscope hstages hnumber]
      -- A stage that is named by the image of a `FROM` stands in front of it, and has a name.
      refine ⟨fun ⟨s, hs, hsome⟩ => ⟨s, eligible_subset _ _ hs, hsome⟩, fun ⟨s, hs, hsome⟩ => ?_⟩
      rw [target?_eq] at htarget
      unfold eligible numbered? at *
      by_cases hsite : site.isFrom = true
      · rw [if_pos hsite, if_pos hsite, Option.or_none] at htarget
        obtain ⟨t, ht, hsame, hnamed⟩ := exists_of_first? htarget
        rw [if_pos hsite]
        refine ⟨t, ht, hsame, ?_⟩
        unfold isNamed at hnamed
        exact Option.isSome_of_any hnamed
      · rw [if_neg hsite]
        exact ⟨s, hs, hsome⟩
  · rw [if_neg (by simp [htarget]), target?_of_kept h hfrom hscope hname, first?_except,
      ← target?_eq]
    · exact iff_of_true rfl fun hsame => absurd hsame htarget
    · intro hfirst
      rw [target?_eq, hfirst] at htarget
      exact htarget rfl

end Renamed

end Stage

end Dockerfile
