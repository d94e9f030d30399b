import Dockerfile.Proofs.Argument
import Dockerfile.Proofs.Body.Readers

/-!
# Instructions inside a text

An instruction whose keyword and region are selected from a text in order (`Instruction.Within`)
maps faithfully back to it: bytes, arguments and spans. Deferring keeps this, so it holds of what an
`ONBUILD` defers at any depth.
-/

namespace Dockerfile

namespace Instruction

def offsets (inst : Instruction) : List Nat :=
  inst.keyword.offsets ++ inst.region.offsets

def spans (inst : Instruction) : List Span :=
  inst.keywordSpan :: inst.span :: inst.region.span ::
    (inst.arguments.map Argument.span ++ inst.emptyLines)

/-- The instruction is selected from the text: its characters in order, and all else it is placed
by at character boundaries. -/
structure Within (text : Text) (inst : Instruction) : Prop where
  chars : inst.chars.Sublist (Text.place 0 text)
  keyword_anchor : Text.isBoundary text inst.keyword.anchor = true
  region_anchor : Text.isBoundary text inst.region.anchor = true
  emptyLines : ∀ s ∈ inst.emptyLines, s.WellPlaced text

theorem offsets_eq (inst : Instruction) : inst.offsets = Placed.offsets inst.chars := by
  rw [offsets, Excerpt.offsets_eq, Excerpt.offsets_eq, ← Placed.offsets_append]
  rfl

theorem mem_offsets {inst : Instruction} {o : Nat} :
    o ∈ inst.offsets ↔ ∃ p ∈ inst.chars, p.offset ≤ o ∧ o < p.stop := by
  rw [offsets_eq, Placed.mem_offsets]

theorem span_stop (inst : Instruction) :
    inst.span.stop = inst.keywordSpan.stop ∨
      ∃ p ∈ inst.region.chars, ∃ q ∈ inst.region.chars,
        inst.span.stop = max (max p.stop q.offset) inst.keywordSpan.stop := by
  obtain ⟨a, b, hab, hbounds⟩ := inst.region.exists_prefix_of_trimmedBounds
  unfold span
  by_cases hpos : 0 < inst.region.trimmedBounds.2
  · have hne : a ≠ [] := by
      rintro rfl
      rw [hbounds] at hpos
      exact absurd hpos (by simp)
    rcases List.eq_nil_or_concat a with rfl | ⟨front, p, rfl⟩
    · exact absurd rfl hne
    rw [List.concat_eq_append, List.append_assoc] at hab
    rw [List.concat_eq_append] at hbounds
    have hp : p ∈ inst.region.chars := by rw [hab]; simp
    obtain ⟨q, tail, hq⟩ := List.exists_cons_of_ne_nil (List.ne_nil_of_mem hp)
    have hfirst : inst.region.rawOffset 0 = q.offset := by
      rw [Excerpt.rawOffset, hq, Excerpt.offsetIn, if_pos q.size_pos, Nat.add_zero]
    refine .inr ⟨p, hp, q, by rw [hq]; exact List.mem_cons_self, ?_⟩
    simp only [if_pos hpos]
    rw [hbounds, Excerpt.spanAt_zero_stop hab, hfirst]
  · left
    simp only [if_neg hpos]
    exact Nat.max_self _

namespace Within

variable {text : Text} {inst : Instruction}

theorem keyword (h : inst.Within text) : inst.keyword.Within text :=
  ⟨(List.sublist_append_left _ _).trans h.chars, h.keyword_anchor⟩

theorem region (h : inst.Within text) : inst.region.Within text :=
  ⟨(List.sublist_append_right _ _).trans h.chars, h.region_anchor⟩

theorem span (h : inst.Within text) : inst.span.WellPlaced text := by
  have hkeyword := h.keyword.span
  have hstart : inst.span.start = inst.keywordSpan.start := rfl
  have hstop : inst.keywordSpan.stop ≤ inst.span.stop := Nat.le_max_right _ _
  have hle : inst.keywordSpan.start ≤ inst.keywordSpan.stop := hkeyword.ordered
  refine .of_boundaries (by omega) hkeyword.start_boundary ?_
  show Text.isBoundary text inst.span.stop = true
  rcases inst.span_stop with hs | ⟨p, hp, q, hq, hs⟩
  · rw [hs]
    exact hkeyword.stop_boundary
  · rw [hs]
    have hp := (Text.isBoundary_of_mem_place (h.region.chars.mem hp)).2
    have hq := (Text.isBoundary_of_mem_place (h.region.chars.mem hq)).1
    exact Text.isBoundary_max (Text.isBoundary_max hp hq) hkeyword.stop_boundary

theorem spans (h : inst.Within text) {s : Span} (hs : s ∈ inst.spans) : s.WellPlaced text := by
  simp only [Instruction.spans, List.mem_cons, List.mem_append, List.mem_map] at hs
  rcases hs with rfl | rfl | rfl | ⟨arg, harg, rfl⟩ | hs
  · exact h.keyword.span
  · exact h.span
  · exact h.region.span
  · exact (Argument.splitFrom_within _ h.region 0 _ (List.suffix_refl _) harg).span
  · exact h.emptyLines s hs

/-- What is deferred is selected from the text as well. -/
theorem trigger (h : inst.Within text) {t : Instruction} (ht : inst.trigger? = some t) :
    t.Within text := by
  unfold trigger? at ht
  split at ht
  · split at ht
    · cases ht
    · rename_i first rest hregion
      cases ht
      have hsuf : first :: rest <:+ inst.region.chars := suffix_of_dropWhile hregion
      have htake := (List.takeWhile_sublist (fun p : Placed => !isBlank p.char)
        (l := first :: rest)).trans hsuf.sublist
      have hdrop := (List.dropWhile_sublist (fun p : Placed => !isBlank p.char)
        (l := first :: rest)).trans hsuf.sublist
      have hkeyword := h.region.part htake hdrop
      have hrest := h.region.part hdrop (List.nil_sublist _)
      refine ⟨?_, hkeyword.anchor, Text.isBoundary_max hrest.anchor hkeyword.span.stop_boundary,
        by simp [ofParts]⟩
      show ((first :: rest).takeWhile (fun p => !isBlank p.char) ++
        (first :: rest).dropWhile fun p => !isBlank p.char).Sublist _
      rw [List.takeWhile_append_dropWhile]
      exact hsuf.sublist.trans h.region.chars
  · cases ht

end Within

/-- An instruction, or one that it defers, at whatever depth. -/
inductive Defers (inst : Instruction) : Instruction → Prop
  | self : Defers inst inst
  | trigger {outer inner : Instruction} (h : Defers inst outer) (ht : outer.trigger? = some inner) :
      Defers inst inner

theorem Within.defers {text : Text} {inst t : Instruction} (h : inst.Within text)
    (ht : inst.Defers t) : t.Within text := by
  induction ht with
  | self => exact h
  | trigger _ ht ih => exact ih.trigger ht

/-- The bytes of the instruction stand in the text in order, at the offsets that its keyword, its
region and its arguments are mapped to, and its spans are spans of the text. -/
structure Mapped (text : Text) (inst : Instruction) : Prop where
  increasing : inst.offsets.Pairwise (· < ·)
  keyword : inst.keyword.Faithful text
  region : inst.region.Faithful text
  arguments : ∀ arg ∈ inst.arguments, arg.content.Faithful text
  keyword_inside : inst.span.start ≤ inst.keywordSpan.start ∧ inst.keywordSpan.stop ≤ inst.span.stop
  spans : ∀ s ∈ inst.spans, s.WellPlaced text

theorem Within.mapped {text : Text} {inst : Instruction} (h : inst.Within text) :
    inst.Mapped text where
  increasing := by
    rw [offsets_eq]
    exact Placed.offsets_increasing h.chars
  keyword := Excerpt.faithful_of_sublist h.keyword.chars
  region := Excerpt.faithful_of_sublist h.region.chars
  arguments := by
    intro arg harg
    have hwithin := Argument.splitFrom_within _ h.region 0 _ (List.suffix_refl _) harg
    exact Excerpt.faithful_of_sublist hwithin.chars
  keyword_inside := ⟨Nat.le_refl _, Nat.le_max_right _ _⟩
  spans := fun _ hs => h.spans hs

/-! ## Bounds -/

theorem keywordSpan_start {inst : Instruction} (h : inst.isNamed = true) :
    ∃ p ∈ inst.keyword.chars, inst.keywordSpan.start = p.offset := by
  unfold keywordSpan Excerpt.span Excerpt.start
  cases hc : inst.keyword.chars with
  | nil => simp [isNamed, Excerpt.isEmpty, hc] at h
  | cons p chars => exact ⟨p, List.mem_cons_self, rfl⟩

theorem keywordSpan_stop_le {inst : Instruction} (h : inst.isNamed = true) {bound : Nat}
    (hb : ∀ p ∈ inst.chars, p.stop ≤ bound) : inst.keywordSpan.stop ≤ bound := by
  obtain ⟨p, hp, hstart⟩ := keywordSpan_start h
  have hp' := hb p (List.mem_append_left _ hp)
  have hlt := p.offset_lt_stop
  have hstop : inst.keyword.stop ≤ bound := by
    rcases inst.keyword.stop_eq with ⟨hnil, -⟩ | ⟨q, hq, hs⟩
    · rw [hnil] at hp; cases hp
    · rw [hs]; exact hb q (List.mem_append_left _ hq)
  have hstart' : inst.keyword.start = p.offset := hstart
  show max inst.keyword.stop inst.keyword.start ≤ bound
  omega

theorem span_stop_le {inst : Instruction} (h : inst.isNamed = true) {bound : Nat}
    (hb : ∀ p ∈ inst.chars, p.stop ≤ bound) : inst.span.stop ≤ bound := by
  have hkeyword := keywordSpan_stop_le h hb
  rcases inst.span_stop with hs | ⟨p, hp, q, hq, hs⟩
  · omega
  · have hp := hb p (List.mem_append_right _ hp)
    have hq := hb q (List.mem_append_right _ hq)
    have hlt := q.offset_lt_stop
    omega

end Instruction

/-! ## Lines of a body -/

namespace Body

variable {text : Text} {escape : Char}

theorem skipLines_emptyLines {chars : List Placed} (hc : chars <:+ Text.place 0 text) {s : Span}
    (hs : s ∈ (skipLines (Text.byteLength text) chars).emptyLines) : s.WellPlaced text := by
  fun_induction skipLines (Text.byteLength text) chars with
  | case1 => simp at hs
  | case2 chars p rest hdrop _ next ih =>
      have hsuf : p :: rest <:+ chars := suffix_of_dropWhile hdrop
      rcases List.mem_cons.mp hs with rfl | hs
      · exact .of_boundaries (Text.startOr_le_startOr hc hsuf) (Text.isBoundary_startOr hc)
          (Text.isBoundary_startOr (hsuf.trans hc))
      · exact ih (((dropNewline_suffix _).trans hsuf).trans hc) hs
  | case3 chars p rest hdrop _ hmark comment next ih =>
      have hsuf : p :: rest <:+ chars := suffix_of_dropWhile hdrop
      have hread : comment.2 <:+ p :: rest :=
        (Comment.read_suffix _ _ rest).trans (List.suffix_cons _ _)
      exact ih ((hread.trans hsuf).trans hc) hs
  | case4 => simp at hs

theorem readUntil_emptyLines {ends : Char → Bool} {chars : List Placed}
    (hc : chars <:+ Text.place 0 text) {s : Span}
    (hs : s ∈ (readUntil ends escape (Text.byteLength text) chars).emptyLines) :
    s.WellPlaced text := by
  fun_induction readUntil ends escape (Text.byteLength text) chars with
  | case1 => simp at hs
  | case2 p rest after hcont skipped next ih =>
      have hafter : after <:+ Text.place 0 text :=
        (afterContinuation?_tiling hcont : Tiling escape 0 _ _ _ _).suffix.trans hc
      rcases List.mem_append.mp hs with hs | hs
      · exact skipLines_emptyLines hafter hs
      · exact ih ((skipLines_tiling after : Tiling escape _ _ _ _ _).suffix.trans hafter) hs
  | case3 => simp at hs
  | case4 p rest _ _ next ih => exact ih ((List.suffix_cons _ _).trans hc) hs

theorem lineAt_within {chars : List Placed} (hc : chars <:+ Text.place 0 text) :
    (lineAt escape (Text.byteLength text) chars).Within text := by
  have hkeyword : Tiling escape (Text.byteLength text) chars _
      (readUntil endsWord escape (Text.byteLength text) chars).chars
      (afterKeyword escape (Text.byteLength text) chars) :=
    readUntil_tiling (fun _ => endsWord_of_isLineBreak) chars
  have hafter := hkeyword.suffix.trans hc
  have hline := line_tiling escape (Text.byteLength text) chars
  have hword : Excerpt.Within text ⟨(readUntil endsWord escape (Text.byteLength text) chars).chars,
      Placed.startOr (Text.byteLength text) chars⟩ :=
    ⟨((List.sublist_append_left _ _).trans hkeyword.kept_sublist).trans hc.sublist,
      Text.isBoundary_startOr hc⟩
  refine ⟨((List.sublist_append_left _ _).trans hline.kept_sublist).trans hc.sublist,
    Text.isBoundary_startOr hc, Text.isBoundary_max ?_ hword.span.stop_boundary, ?_⟩
  · cases hrest : readUntil endsWord escape (Text.byteLength text) chars with
    | mk kept empty comments rest =>
        cases rest with
        | nil =>
            rw [hrest] at hword
            exact hword.stop_boundary
        | cons q tail =>
            unfold afterKeyword at hafter
            rw [hrest] at hafter
            exact (Text.isBoundary_of_mem_place (hafter.mem List.mem_cons_self)).1
  · intro s hs
    rcases List.mem_append.mp hs with hs | hs
    · exact readUntil_emptyLines hc hs
    · exact readUntil_emptyLines hafter hs

theorem logicalLines_within {chars : List Placed} (hc : chars <:+ Text.place 0 text)
    {line : Instruction} (h : line ∈ logicalLines escape (Text.byteLength text) chars) :
    line.Within text := by
  obtain ⟨start, hstart, rfl⟩ := exists_lineAt_of_mem h
  exact lineAt_within (hstart.trans hc)

/-- Behind the break at which a line ends, everything stands later than the line. -/
theorem stop_lt_of_mem_dropNewline {chars : List Placed} (hc : chars <:+ Text.place 0 text)
    {p q : Placed} (hp : p ∈ (lineAt escape (Text.byteLength text) chars).chars)
    (hq : q ∈ dropNewline (afterLine escape (Text.byteLength text) chars)) : p.stop < q.offset := by
  have hkept := (line_tiling escape (Text.byteLength text) chars).kept_sublist.trans hc.sublist
  have hpair := (List.pairwise_append.mp ((Text.pairwise_place 0 text).sublist hkept)).2
  rcases readUntil_rest isLineBreak escape (Text.byteLength text)
    (afterKeyword escape (Text.byteLength text) chars) with hrest | ⟨b, tail, hrest, hb⟩
  · unfold afterLine at hq
    rw [hrest] at hq
    cases hq
  · unfold afterLine at hq hpair
    rw [hrest] at hq hpair
    have htail : q ∈ tail := by
      unfold dropNewline at hq
      rw [afterNewline?_cons, if_pos hb, Option.getD_some] at hq
      split at hq
      · exact List.mem_of_mem_tail hq
      · exact hq
    have hbreak := hpair.2 p hp b List.mem_cons_self
    have hlater := (List.pairwise_cons.mp hpair.1).1 q htail
    have := b.offset_lt_stop
    omega

/-- Between two lines there is at least the break that ends the first. -/
theorem logicalLines_separated {chars : List Placed} (hc : chars <:+ Text.place 0 text) :
    (logicalLines escape (Text.byteLength text) chars).Pairwise fun a b =>
      ∀ p ∈ a.chars, ∀ q ∈ b.chars, p.stop < q.offset := by
  fun_induction logicalLines escape (Text.byteLength text) chars with
  | case1 => exact .nil
  | case2 chars p rest hdrop _ ih =>
      have hsuf : p :: rest <:+ chars := suffix_of_dropWhile hdrop
      have hread := (Comment.read_suffix (Text.byteLength text) p.offset rest).trans
        (List.suffix_cons p rest)
      exact ih ((hread.trans hsuf).trans hc)
  | case3 chars p rest hdrop _ ih =>
      have hsuf : p :: rest <:+ chars := suffix_of_dropWhile hdrop
      have hline := (line_tiling escape (Text.byteLength text) (p :: rest)).suffix
      refine .cons ?_ (ih ((((dropNewline_suffix _).trans hline).trans hsuf).trans hc))
      intro b hb q hq r hr
      exact stop_lt_of_mem_dropNewline (hsuf.trans hc) hq (mem_of_mem_logicalLines hb hr)

end Body

end Dockerfile
