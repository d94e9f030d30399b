import Dockerfile.Proofs.File.SourceMap
import Mathlib.Logic.ExistsUnique

/-!
# Which bytes a file accounts for

No byte of a text is read twice (`File.holds_unique`). A byte other than layout is read at least once
if it stands in a line with a keyword. A line that starts with a continuation and goes on with a
blank has none and is dropped, so the file accounts for all content exactly if those lines have none
(`File.accounts_iff`).
-/

namespace Dockerfile

namespace File

/-- What a byte of a text can be part of: a comment, or the keyword or the region of an instruction,
each by its number. -/
inductive Place where
  | comment (number : Nat)
  | keyword (number : Nat)
  | region (number : Nat)
  deriving DecidableEq, Repr

/-- Whether the byte at an offset is part of a place of the file. -/
def Holds (file : File) (offset : Nat) : Place → Prop
  | .comment number =>
      ∃ c, file.comments[number]? = some c ∧ c.span.start ≤ offset ∧ offset < c.span.stop
  | .keyword number => ∃ inst, file.instructions[number]? = some inst ∧ offset ∈ inst.keyword.offsets
  | .region number => ∃ inst, file.instructions[number]? = some inst ∧ offset ∈ inst.region.offsets

/-- The byte at an offset belongs to a character that is neither a blank nor part of a line
terminator nor the escape character of a continuation. -/
def IsContent (text : Text) (escape : Char) (offset : Nat) : Prop :=
  ∃ p after, p :: after <:+ Text.place 0 text ∧ p.offset ≤ offset ∧ offset < p.stop ∧
    startsLayout escape (p :: after) = false

/-- Every byte of content is part of exactly one place. -/
def Accounts (text : Text) (file : File) : Prop :=
  ∀ offset, IsContent text file.escape offset → ∃! place, file.Holds offset place

/-! ## At most one place -/

theorem index_eq_of_pairwise {R : α → α → Prop} {xs : List α} (h : xs.Pairwise R) {i j : Nat}
    {a b : α} (hi : xs[i]? = some a) (hj : xs[j]? = some b) (hab : ¬ R a b) (hba : ¬ R b a) :
    i = j := by
  obtain ⟨hilt, rfl⟩ := List.getElem?_eq_some_iff.mp hi
  obtain ⟨hjlt, rfl⟩ := List.getElem?_eq_some_iff.mp hj
  have hpair := List.pairwise_iff_getElem.mp h
  rcases Nat.lt_trichotomy i j with hlt | heq | hlt
  · exact absurd (hpair i j hilt hjlt hlt) hab
  · exact heq
  · exact absurd (hpair j i hjlt hilt hlt) hba

theorem instruction_index_unique {text : Text} {offset i j : Nat} {a b : Instruction}
    (hi : (parse text).instructions[i]? = some a) (hj : (parse text).instructions[j]? = some b)
    (ha : offset ∈ a.offsets) (hb : offset ∈ b.offsets) : i = j := by
  refine index_eq_of_pairwise (parse_ordered text) hi hj ?_ ?_
  · intro h
    exact absurd (h offset ha offset hb) (Nat.lt_irrefl _)
  · intro h
    exact absurd (h offset hb offset ha) (Nat.lt_irrefl _)

/-- The keyword and the region of an instruction share no byte. -/
theorem keyword_region_apart {text : Text} {inst : Instruction}
    (h : inst ∈ (parse text).instructions) {offset : Nat} (hk : offset ∈ inst.keyword.offsets)
    (hr : offset ∈ inst.region.offsets) : False := by
  have hincreasing := (instruction_within h).mapped.increasing
  unfold Instruction.offsets at hincreasing
  exact absurd ((List.pairwise_append.mp hincreasing).2.2 offset hk offset hr) (Nat.lt_irrefl _)

theorem comment_instruction_apart {text : Text} {offset i j : Nat} {c : Comment} {inst : Instruction}
    (hi : (parse text).comments[i]? = some c) (hj : (parse text).instructions[j]? = some inst)
    (hstart : c.span.start ≤ offset) (hstop : offset < c.span.stop) (ho : offset ∈ inst.offsets) :
    False := by
  have := parse_comments_apart (List.mem_of_getElem? hi) (List.mem_of_getElem? hj) ho
  omega

/-- No byte is read twice. -/
theorem holds_unique (text : Text) {offset : Nat} {a b : Place} (ha : (parse text).Holds offset a)
    (hb : (parse text).Holds offset b) : a = b := by
  cases a with
  | comment i =>
      obtain ⟨c, hi, hstart, hstop⟩ := ha
      cases b with
      | comment j =>
          obtain ⟨d, hj, hstart', hstop'⟩ := hb
          have hordered := (parse_tiling text).comments_ordered (List.suffix_refl _)
          rw [index_eq_of_pairwise hordered hi hj (by omega) (by omega)]
      | keyword j =>
          obtain ⟨inst, hj, hk⟩ := hb
          exact (comment_instruction_apart hi hj hstart hstop (List.mem_append_left _ hk)).elim
      | region j =>
          obtain ⟨inst, hj, hr⟩ := hb
          exact (comment_instruction_apart hi hj hstart hstop (List.mem_append_right _ hr)).elim
  | keyword i =>
      obtain ⟨inst, hi, hk⟩ := ha
      have ho : offset ∈ inst.offsets := List.mem_append_left _ hk
      cases b with
      | comment j =>
          obtain ⟨c, hj, hstart, hstop⟩ := hb
          exact (comment_instruction_apart hj hi hstart hstop ho).elim
      | keyword j =>
          obtain ⟨inst', hj, hk'⟩ := hb
          rw [instruction_index_unique hi hj ho (List.mem_append_left _ hk')]
      | region j =>
          obtain ⟨inst', hj, hr⟩ := hb
          have hij := instruction_index_unique hi hj ho (List.mem_append_right _ hr)
          rw [← hij, hi, Option.some.injEq] at hj
          subst hj
          exact (keyword_region_apart (List.mem_of_getElem? hi) hk hr).elim
  | region i =>
      obtain ⟨inst, hi, hr⟩ := ha
      have ho : offset ∈ inst.offsets := List.mem_append_right _ hr
      cases b with
      | comment j =>
          obtain ⟨c, hj, hstart, hstop⟩ := hb
          exact (comment_instruction_apart hj hi hstart hstop ho).elim
      | keyword j =>
          obtain ⟨inst', hj, hk⟩ := hb
          have hij := instruction_index_unique hi hj ho (List.mem_append_left _ hk)
          rw [← hij, hi, Option.some.injEq] at hj
          subst hj
          exact (keyword_region_apart (List.mem_of_getElem? hi) hk hr).elim
      | region j =>
          obtain ⟨inst', hj, hr'⟩ := hb
          rw [instruction_index_unique hi hj ho (List.mem_append_right _ hr')]

/-! ## At least one place -/

/-- Each line without a keyword has only blanks behind its continuations. -/
def NamelessLinesBlank (text : Text) : Prop :=
  ∀ line ∈ logicalLines text, line.isNamed = false →
    ∀ p ∈ line.region.chars, isBlank p.char = true

theorem holds_of_mem_offsets {file : File} {inst : Instruction} (h : inst ∈ file.instructions)
    {offset : Nat} (ho : offset ∈ inst.offsets) : ∃ place, file.Holds offset place := by
  obtain ⟨number, hnumber⟩ := List.getElem?_of_mem h
  rcases List.mem_append.mp ho with hk | hr
  · exact ⟨.keyword number, inst, hnumber, hk⟩
  · exact ⟨.region number, inst, hnumber, hr⟩

theorem exists_instruction_of_holds {text : Text} {offset : Nat} {place : Place}
    (h : (parse text).Holds offset place) :
    (∃ c ∈ (parse text).comments, c.span.start ≤ offset ∧ offset < c.span.stop) ∨
      ∃ inst ∈ (parse text).instructions, offset ∈ inst.offsets := by
  cases place with
  | comment number =>
      obtain ⟨c, hc, hspan⟩ := h
      exact .inl ⟨c, List.mem_of_getElem? hc, hspan⟩
  | keyword number =>
      obtain ⟨inst, hinst, hk⟩ := h
      exact .inr ⟨inst, List.mem_of_getElem? hinst, List.mem_append_left _ hk⟩
  | region number =>
      obtain ⟨inst, hinst, hr⟩ := h
      exact .inr ⟨inst, List.mem_of_getElem? hinst, List.mem_append_right _ hr⟩

theorem region_of_nameless {line : Instruction} (h : line.isNamed = false) {p : Placed}
    (hp : p ∈ line.chars) : p ∈ line.region.chars := by
  rcases List.mem_append.mp hp with hp | hp
  · have hnil : line.keyword.chars = [] := by
      simpa [Instruction.isNamed, Excerpt.isEmpty] using h
    rw [hnil] at hp
    cases hp
  · exact hp

/-- Content is in a comment or in a line, and if nameless lines have none then in an instruction. -/
theorem exists_place {text : Text} (h : NamelessLinesBlank text) {offset : Nat}
    (hc : IsContent text (parse text).escape offset) :
    ∃ place, (parse text).Holds offset place := by
  obtain ⟨p, after, hsuf, hstart, hstop, hlayout⟩ := hc
  rcases (parse_tiling text).covers (List.suffix_refl _) hsuf with hl | hkept | ⟨c, hc, hspan⟩
  · rw [hl] at hlayout
    cases hlayout
  · obtain ⟨line, hline, hp⟩ := List.mem_flatMap.mp hkept
    cases hnamed : line.isNamed with
    | true =>
        have hinst : line ∈ (parse text).instructions := by
          rw [instructions_parse]
          exact List.mem_filter.mpr ⟨hline, hnamed⟩
        exact holds_of_mem_offsets hinst (Instruction.mem_offsets.mpr ⟨p, hp, hstart, hstop⟩)
    | false =>
        have hblank := h line hline hnamed p (region_of_nameless hnamed hp)
        simp [startsLayout, hblank] at hlayout
  · obtain ⟨number, hnumber⟩ := List.getElem?_of_mem hc
    exact ⟨.comment number, c, hnumber, by omega, by omega⟩

theorem not_holds_of_nameless {text : Text} {line : Instruction} (h : line ∈ logicalLines text)
    (hn : line.isNamed = false) {p : Placed} (hp : p ∈ line.region.chars) (place : Place) :
    ¬ (parse text).Holds p.offset place := by
  intro hheld
  have hchars : p ∈ line.chars := List.mem_append_right _ hp
  have hlt := p.offset_lt_stop
  rcases exists_instruction_of_holds hheld with ⟨c, hc, hstart, hstop⟩ | ⟨inst, hinst, ho⟩
  · have := (parse_tiling text).comment_apart (List.suffix_refl _) hc (kept_of_mem h hchars)
    omega
  · obtain ⟨q, hq, hqstart, hqstop⟩ := Instruction.mem_offsets.mp ho
    obtain ⟨i, hi⟩ := List.getElem?_of_mem h
    obtain ⟨j, hj⟩ := List.getElem?_of_mem (mem_logicalLines hinst)
    -- The two lines share a byte, so they are the same line; but only one of them has a keyword.
    have hij : i = j := by
      refine index_eq_of_pairwise (Body.logicalLines_separated (bodyChars_suffix text)) hi hj ?_ ?_
      · intro hab
        have := hab p hchars q hq
        omega
      · intro hba
        have := hba q hq p hchars
        omega
    rw [hij] at hi
    have heq : line = inst := Option.some.inj (hi.symm.trans hj)
    rw [heq, isNamed_of_mem hinst] at hn
    cases hn

/-- No byte is read twice, and every byte of content is read exactly if the lines without a keyword
hold none. -/
theorem accounts_iff (text : Text) :
    (∀ offset a b, (parse text).Holds offset a → (parse text).Holds offset b → a = b) ∧
      (Accounts text (parse text) ↔ NamelessLinesBlank text) := by
  refine ⟨fun _ _ _ ha hb => holds_unique text ha hb, ?_, ?_⟩
  · intro h line hline hn p hp
    cases hb : isBlank p.char with
    | true => rfl
    | false =>
        have hkept := kept_of_mem hline (List.mem_append_right _ hp)
        obtain ⟨after, hsuf, hlayout⟩ := (parse_tiling text).kept_content hkept hb
        have hcontent : IsContent text (parse text).escape p.offset :=
          ⟨p, after, hsuf, Nat.le_refl _, p.offset_lt_stop, hlayout⟩
        obtain ⟨place, hplace, -⟩ := h p.offset hcontent
        exact absurd hplace (not_holds_of_nameless hline hn hp place)
  · intro h offset hc
    obtain ⟨place, hplace⟩ := exists_place h hc
    exact ⟨place, hplace, fun other hother => holds_unique text hother hplace⟩

/-- A line that starts with a continuation and a blank is lost. -/
theorem not_accounts_of_leading_continuation :
    ¬ Accounts "\\\n FROM x".toList (parse "\\\n FROM x".toList) := by
  intro h
  have hparse : parse "\\\n FROM x".toList = ⟨[], [], []⟩ := by decide +kernel
  rw [hparse] at h
  obtain ⟨place, hplace, -⟩ := h 3 ⟨⟨'F', 3⟩, Text.place 4 "ROM x".toList,
    ⟨Text.place 0 "\\\n ".toList, rfl⟩, by decide, by decide, by decide⟩
  cases place with
  | comment number => obtain ⟨c, hc, -⟩ := hplace; simp at hc
  | keyword number => obtain ⟨inst, hinst, -⟩ := hplace; simp at hinst
  | region number => obtain ⟨inst, hinst, -⟩ := hplace; simp at hinst

end File

end Dockerfile
