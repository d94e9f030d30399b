import Dockerfile.Editor.Layout
import Dockerfile.Proofs.File.Reading
import Dockerfile.Proofs.Text.Position

/-!
# The lines an instruction goes on to

A layout takes the further lines of an instruction from line numbers alone. They are exactly the
lines in front of which the instruction keeps some characters and behind whose start it keeps others
(`Layout.isContinued_iff`): an instruction does not end with a line that it keeps nothing of.
-/

namespace Dockerfile

namespace Body

variable {text : Text} {escape : Char}

/-- What is left behind a continuation does not start with a line break. -/
theorem skipLines_rest_head (stop : Nat) (chars : List Placed) :
    ∀ p ∈ (skipLines stop chars).rest.head?, isLineBreak p.char = false := by
  have hfirst {chars : List Placed}
      (h : ∀ p ∈ (chars.dropWhile fun p => isBlank p.char).head?, isLineBreak p.char = false) :
      ∀ p ∈ chars.head?, isLineBreak p.char = false := by
    intro p hp
    obtain ⟨rest, rfl⟩ := List.head?_eq_some_iff.mp (Option.mem_def.mp hp)
    cases hblank : isBlank p.char with
    | true => exact isLineBreak_of_isBlank hblank
    | false =>
        rw [List.dropWhile_cons, hblank] at h
        exact h p rfl
  fun_induction skipLines stop chars with
  | case1 chars hdrop => exact hfirst (by rw [hdrop]; simp)
  | case2 _ _ _ _ _ _ ih => exact ih
  | case3 _ _ _ _ _ _ _ _ ih => exact ih
  | case4 chars p rest hdrop hb _ => exact hfirst (by rw [hdrop]; simpa using hb)

/-- A line break that ends a run stands right behind the last character that the run keeps. -/
theorem exists_stop_eq_of_rest {ends : Char → Bool} {chars : List Placed}
    (hc : chars <:+ Text.place 0 text) {b : Placed} {tail : List Placed}
    (h : (readUntil ends escape (Text.byteLength text) chars).rest = b :: tail)
    (hb : isLineBreak b.char = true) :
    chars = b :: tail ∨
      ∃ p ∈ (readUntil ends escape (Text.byteLength text) chars).chars, p.stop = b.offset := by
  fun_induction readUntil ends escape (Text.byteLength text) chars with
  | case1 => cases h
  | case2 p rest after hcont skipped next ih =>
      have hafter := (afterContinuation?_tiling hcont : Tiling escape 0 _ _ _ _).suffix.trans hc
      have hrest : skipped.rest <:+ Text.place 0 text :=
        (skipLines_tiling after : Tiling escape _ _ _ _ _).suffix.trans hafter
      rcases ih hrest h with hskipped | hkept
      · have := skipLines_rest_head (Text.byteLength text) after b (by
          rw [show (skipLines (Text.byteLength text) after).rest = b :: tail from hskipped]
          rfl)
        rw [hb] at this
        cases this
      · exact .inr hkept
  | case3 p rest _ _ => exact .inl h
  | case4 p rest _ _ next ih =>
      rcases ih ((List.suffix_cons _ _).trans hc) h with rfl | ⟨q, hq, hstop⟩
      · refine .inr ⟨p, List.mem_cons_self, ?_⟩
        obtain ⟨before, -, hstart, hnext⟩ := Text.exists_split_of_append_suffix (a := [p]) hc
        have hstart : p.offset = Text.byteLength before := hstart
        rw [Placed.startOr_cons, ← hstart] at hnext
        exact hnext.symm
      · exact .inr ⟨q, List.mem_cons_of_mem _ hq, hstop⟩

theorem lineAt_region_anchor_le (he : endsWord escape = false) {chars : List Placed}
    (hc : chars <:+ Text.place 0 text)
    (hnamed : (lineAt escape (Text.byteLength text) chars).isNamed = true)
    (hnil : (lineAt escape (Text.byteLength text) chars).region.chars = []) {bound : Nat}
    (hbound : ∀ p ∈ (lineAt escape (Text.byteLength text) chars).chars, p.stop ≤ bound) :
    (lineAt escape (Text.byteLength text) chars).region.anchor ≤ bound := by
  have hkeyword := Instruction.keywordSpan_stop_le hnamed hbound
  refine Nat.max_le.mpr ⟨?_, hkeyword⟩
  show Placed.startOr _ (readUntil endsWord escape (Text.byteLength text) chars).rest ≤ bound
  rcases readUntil_rest endsWord escape (Text.byteLength text) chars with h | ⟨b, tail, h, hb⟩
  · rw [h]
    exact Nat.le_trans (Nat.le_max_left _ _) hkeyword
  · rw [h, Placed.startOr_cons]
    have hbreak : isLineBreak b.char = true := by
      cases hbreak : isLineBreak b.char with
      | true => rfl
      | false =>
          -- A blank behind the keyword would be part of the region.
          have hblank : isBlank b.char = true := by simpa [endsWord, hbreak] using hb
          have hregion : (readUntil isLineBreak escape (Text.byteLength text) (b :: tail)).chars = [] := by
            rw [← h]
            exact hnil
          rw [readUntil_of_char (afterContinuation?_of_blank he hblank tail) hbreak] at hregion
          cases hregion
    rcases exists_stop_eq_of_rest hc h hbreak with hchars | ⟨p, hp, hstop⟩
    · have hempty : (lineAt escape (Text.byteLength text) chars).keyword.chars = [] := by
        show (readUntil endsWord escape (Text.byteLength text) chars).chars = []
        have hcont : afterContinuation? escape (b :: tail) = none := by
          simp only [afterContinuation?]
          rw [if_neg]
          intro heq
          rw [heq, he] at hb
          cases hb
        rw [hchars, readUntil_of_end hcont hb]
      simp [Instruction.isNamed, Excerpt.isEmpty, hempty] at hnamed
    · rw [← hstop]
      exact hbound p (List.mem_append_left _ hp)

end Body

namespace Instruction

theorem extent_stop_le {inst : Instruction} (hnamed : inst.isNamed = true) {bound : Nat}
    (hbound : ∀ p ∈ inst.chars, p.stop ≤ bound)
    (hanchor : inst.region.chars = [] → inst.region.anchor ≤ bound) : inst.extent.stop ≤ bound := by
  refine Nat.max_le.mpr ⟨span_stop_le hnamed hbound, ?_⟩
  have hregion : ∀ p ∈ inst.region.chars, p.stop ≤ bound := fun p hp =>
    hbound p (List.mem_append_right _ hp)
  unfold Excerpt.span Excerpt.stop Excerpt.start
  cases hchars : inst.region.chars with
  | nil => exact Nat.max_le.mpr ⟨hanchor hchars, hanchor hchars⟩
  | cons p chars =>
      rw [hchars] at hregion
      refine Nat.max_le.mpr ⟨?_, ?_⟩
      · unfold Placed.stopOr
        cases hlast : (p :: chars).getLast? with
        | none => cases List.getLast?_eq_none_iff.mp hlast
        | some q => exact hregion q (List.mem_of_getLast? hlast)
      · have := hregion p List.mem_cons_self
        have := p.offset_lt_stop
        rw [Placed.startOr_cons]
        omega

theorem stop_le_extent_stop {text : Text} {inst : Instruction} (h : inst.Within text) {p : Placed}
    (hp : p ∈ inst.chars) : p.stop ≤ inst.extent.stop := by
  rcases List.mem_append.mp hp with hp | hp
  · have hkeyword : p.stop ≤ inst.keywordSpan.stop := h.keyword.stop_le hp
    have hspan : inst.keywordSpan.stop ≤ inst.span.stop := Nat.le_max_right _ _
    exact Nat.le_trans (Nat.le_trans hkeyword hspan) (Nat.le_max_left _ _)
  · exact Nat.le_trans (h.region.stop_le hp) (Nat.le_max_right _ _)

theorem keywordSpan_start_le {text : Text} {inst : Instruction} (h : inst.Within text)
    (hnamed : inst.isNamed = true) {p : Placed} (hp : p ∈ inst.chars) :
    inst.keywordSpan.start ≤ p.offset := by
  have hordered := (Text.pairwise_place 0 text).sublist h.chars
  unfold keywordSpan Excerpt.span Excerpt.start
  unfold chars at hp hordered
  cases hkeyword : inst.keyword.chars with
  | nil => simp [isNamed, Excerpt.isEmpty, hkeyword] at hnamed
  | cons first keyword =>
      rw [hkeyword] at hp hordered
      rcases List.mem_cons.mp hp with rfl | hp
      · exact Nat.le_refl _
      · have := (List.pairwise_cons.mp hordered).1 p hp
        have := first.offset_lt_stop
        show first.offset ≤ p.offset
        omega

end Instruction

namespace File

/-- An instruction ends where all that it keeps has ended. -/
theorem extent_stop_le {text : Text} {inst : Instruction} (h : inst ∈ (parse text).instructions)
    {bound : Nat} (hbound : ∀ p ∈ inst.chars, p.stop ≤ bound) : inst.extent.stop ≤ bound := by
  refine Instruction.extent_stop_le (isNamed_of_mem h) hbound fun hnil => ?_
  have hnamed := isNamed_of_mem h
  obtain ⟨start, hstart, rfl⟩ := Body.exists_lineAt_of_mem (mem_logicalLines h)
  exact Body.lineAt_region_anchor_le (escapeUnder_content _).1
    (hstart.trans (bodyChars_suffix text)) hnamed hnil hbound

theorem extents_apart (text : Text) :
    (parse text).instructions.Pairwise fun a b => a.extent.stop < b.extent.start := by
  refine (instructions_separated text).imp_of_mem fun {a b} ha hb hapart => ?_
  obtain ⟨q, hq, hoffset⟩ := Instruction.keywordSpan_start (isNamed_of_mem hb)
  have hbefore : ∀ p ∈ a.chars, p.stop < q.offset := fun p hp =>
    hapart p hp q (List.mem_append_left _ hq)
  obtain ⟨p, hp, -⟩ := Instruction.keywordSpan_start (isNamed_of_mem ha)
  have hpos := hbefore p (List.mem_append_left _ hp)
  have hstop : a.extent.stop ≤ q.offset - 1 := extent_stop_le ha fun p hp => by
    have := hbefore p hp
    omega
  have hstart : b.extent.start = q.offset := hoffset
  omega

end File

namespace Layout

variable {text front rest : Text} {before after : List Line} {line : Line}

/-- If an instruction keeps nothing from a line start on, it ends in front of it. -/
theorem extent_stop_lt (hcut : Text.Cut text front rest before (line :: after)) {inst : Instruction}
    (h : inst ∈ (File.parse text).instructions) (hkept : ∀ p ∈ inst.chars, p.offset < line.start) :
    inst.extent.stop < line.start := by
  have hwithin := File.instruction_within h
  have hline := File.mem_logicalLines h
  obtain ⟨p, hp, -⟩ := Instruction.keywordSpan_start (File.isNamed_of_mem h)
  have hpos := hkept p (List.mem_append_left _ hp)
  -- The break in front of the line is not kept.
  have hbound : ∀ q ∈ inst.chars, q.stop ≤ line.start - 1 := by
    intro q hq
    have hplace := hwithin.chars.mem hq
    have hstop : q.stop ≤ line.start := by
      rcases hcut.stop_le_or_start_le hplace with hle | hle
      · exact hle
      · have := hkept q hq
        omega
    have hne : q.stop ≠ line.start := by
      intro heq
      have hbreak := hcut.isLineBreak_of_stop_eq hplace heq
      rw [File.not_break_of_mem hline hq] at hbreak
      cases hbreak
    omega
  have := File.extent_stop_le h hbound
  omega

theorem isContinued_iff (settings : Settings)
    (hcut : Text.Cut text front rest before (line :: after)) :
    isContinued (extents (analyze text settings)) before.length = true ↔
      ∃ inst ∈ (File.parse text).instructions, (∃ p ∈ inst.chars, p.offset < line.start) ∧
        ∃ q ∈ inst.chars, line.start ≤ q.offset := by
  have hinside {inst : Instruction} (h : inst ∈ (File.parse text).instructions) :
      inst.keywordSpan.start ≤ Text.byteLength text ∧ inst.extent.stop ≤ Text.byteLength text := by
    have hwithin := File.instruction_within h
    have hkeyword := hwithin.keyword.span
    have hordered : inst.keywordSpan.start ≤ inst.keywordSpan.stop := hkeyword.ordered
    have hbounded : inst.keywordSpan.stop ≤ Text.byteLength text := hkeyword.bounded
    exact ⟨by omega, Nat.max_le.mpr ⟨hwithin.span.bounded, hwithin.region.span.bounded⟩⟩
  have hextents : isContinued (extents (analyze text settings)) before.length = true ↔
      ∃ inst ∈ (File.parse text).instructions,
        inst.keywordSpan.start < line.start ∧ line.start ≤ inst.extent.stop := by
    unfold isContinued extents
    rw [List.any_map, List.any_eq_true]
    refine exists_congr fun inst => and_congr_right fun h => ?_
    obtain ⟨hstart, hstop⟩ := hinside h
    have hstart' := hcut.le_lineOf_iff hstart
    have hstop' := hcut.le_lineOf_iff hstop
    simp only [Function.comp_apply, Bool.and_eq_true, decide_eq_true_eq]
    show _ < _ ∧ before.length ≤ Text.lineOf text inst.extent.stop ↔ _
    rw [hstop', ← Nat.not_le, ← Nat.not_le (a := line.start), ← hstart']
    rfl
  rw [hextents]
  constructor
  · rintro ⟨inst, h, hstart, hstop⟩
    refine ⟨inst, h, ?_, ?_⟩
    · obtain ⟨p, hp, hoffset⟩ := Instruction.keywordSpan_start (File.isNamed_of_mem h)
      exact ⟨p, List.mem_append_left _ hp, by omega⟩
    · refine Decidable.byContradiction fun hnone => ?_
      have hlt := extent_stop_lt hcut h fun p hp => by
        refine Nat.lt_of_not_le fun hle => hnone ⟨p, hp, hle⟩
      omega
  · rintro ⟨inst, h, ⟨p, hp, hbefore⟩, q, hq, hbehind⟩
    have hwithin := File.instruction_within h
    have hstart := Instruction.keywordSpan_start_le hwithin (File.isNamed_of_mem h) hp
    have hstop := Instruction.stop_le_extent_stop hwithin hq
    have := q.offset_lt_stop
    exact ⟨inst, h, by omega, by omega⟩

end Layout

end Dockerfile
