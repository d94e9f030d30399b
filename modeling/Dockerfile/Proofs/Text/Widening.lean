import Dockerfile.Proofs.Text.Bytes

/-!
# Clamped and widened spans

Clamping a span gives a span of the text, and leaves a span of the text as it is. Widening changes a
clamped span only if it is empty, and then covers one character, unless there is none beside it that
an editor could show (`Text.widen_cases`).
-/

namespace Dockerfile

namespace Text

theorem isBoundary_floorBoundary (text : Text) (offset : Nat) :
    isBoundary text (floorBoundary text offset) = true :=
  isBoundary_iff.mpr
    ⟨takeBytes offset text, dropBytes offset text, (takeBytes_append_dropBytes _ _).symm, rfl⟩

theorem floorBoundary_of_isBoundary {text : Text} {offset : Nat}
    (h : isBoundary text offset = true) : floorBoundary text offset = offset := by
  simpa [isBoundary] using h

theorem clampSpan_wellPlaced (text : Text) (span : Span) : (clampSpan text span).WellPlaced text :=
  .of_boundaries (Nat.le_max_left _ _) (isBoundary_floorBoundary text span.start)
    (isBoundary_max (isBoundary_floorBoundary text span.start)
      (isBoundary_floorBoundary text span.stop))

theorem clampSpan_of_wellPlaced {text : Text} {span : Span} (h : span.WellPlaced text) :
    clampSpan text span = span := by
  simp only [clampSpan, floorBoundary_of_isBoundary h.start_boundary,
    floorBoundary_of_isBoundary h.stop_boundary, Nat.max_eq_right h.ordered]

/-- Beside an offset there is nothing to show: only a line break, or an end of the text. -/
def Bare (text : Text) (offset : Nat) : Prop :=
  ∀ before after, text = before ++ after → byteLength before = offset →
    (∀ c ∈ before.getLast?, isLineBreak c = true) ∧ ∀ c ∈ after.head?, isLineBreak c = true

/-- Two cuts of a text at one offset are the same. -/
theorem eq_of_byteLength_eq {a b a' b' : Text} (h : a ++ b = a' ++ b')
    (hlen : byteLength a = byteLength a') : a = a' ∧ b = b' := by
  have htake := takeBytes_append_byteLength a b
  have hdrop := dropBytes_append_byteLength a b
  rw [h, hlen, takeBytes_append_byteLength] at htake
  rw [h, hlen, dropBytes_append_byteLength] at hdrop
  exact ⟨htake.symm, hdrop.symm⟩

theorem bare_of_split {a b : Text} (hlast : ∀ c ∈ a.getLast?, isLineBreak c = true)
    (hhead : ∀ c ∈ b.head?, isLineBreak c = true) : Bare (a ++ b) (byteLength a) := by
  intro before after h hlen
  obtain ⟨rfl, rfl⟩ := eq_of_byteLength_eq h hlen.symm
  exact ⟨hlast, hhead⟩

section Empty

variable {a b : Text} {c : Char} {span : Span}

/-- An empty span is widened over the next character. -/
theorem widen_forward (h : clampSpan (a ++ c :: b) span = Span.empty (byteLength a))
    (hc : isLineBreak c = false) :
    widen (a ++ c :: b) span = ⟨byteLength a, byteLength a + c.utf8Size⟩ := by
  simp [widen, h, Span.empty, dropBytes_append_byteLength, hc]

/-- In front of a line break or the end, an empty span is widened over the character before. -/
theorem widen_backward
    (h : clampSpan (a ++ c :: b) span = Span.empty (byteLength a + c.utf8Size))
    (hc : isLineBreak c = false) (hhead : ∀ d ∈ b.head?, isLineBreak d = true) :
    widen (a ++ c :: b) span = ⟨byteLength a, byteLength a + c.utf8Size⟩ := by
  have hsplit : a ++ c :: b = (a ++ [c]) ++ b := by simp
  have hlen : byteLength a + c.utf8Size = byteLength (a ++ [c]) := by simp
  rw [hsplit, hlen] at h ⊢
  simp only [widen, h, Span.empty, takeBytes_append_byteLength, dropBytes_append_byteLength,
    List.getLast?_concat, hc]
  cases b with
  | nil => simp
  | cons d b => simp [hhead d rfl]

theorem widen_bare (h : clampSpan (a ++ b) span = Span.empty (byteLength a))
    (hlast : ∀ d ∈ a.getLast?, isLineBreak d = true)
    (hhead : ∀ d ∈ b.head?, isLineBreak d = true) :
    widen (a ++ b) span = Span.empty (byteLength a) := by
  simp only [widen, h, Span.empty, takeBytes_append_byteLength, dropBytes_append_byteLength]
  cases hback : a.getLast? with
  | none =>
      cases b with
      | nil => simp
      | cons d b => simp [hhead d rfl]
  | some c =>
      have hc := hlast c hback
      cases b with
      | nil => simp [hc]
      | cons d b => simp [hc, hhead d rfl]

end Empty

/-- What widening can do: it leaves a span that is not empty, covers the character behind or in
front of an empty one, or finds nothing to show beside it. -/
theorem widen_cases (text : Text) (span : Span) :
    ((clampSpan text span).start < (clampSpan text span).stop ∧
        widen text span = clampSpan text span) ∨
      (∃ a c b, text = a ++ c :: b ∧
        widen text span = ⟨byteLength a, byteLength a + c.utf8Size⟩) ∨
      (∃ offset, widen text span = Span.empty offset ∧ isBoundary text offset = true ∧
        Bare text offset) := by
  have hplaced := clampSpan_wellPlaced text span
  by_cases hne : (clampSpan text span).start ≠ (clampSpan text span).stop
  · have := hplaced.ordered
    exact .inl ⟨by omega, if_pos hne⟩
  obtain ⟨a, b, rfl, hstart⟩ := isBoundary_iff.mp hplaced.start_boundary
  have hempty : clampSpan (a ++ b) span = Span.empty (byteLength a) := by
    rw [Span.empty, hstart]
    exact congrArg (Span.mk _) (Decidable.not_not.mp hne).symm
  by_cases hhead : ∀ d ∈ b.head?, isLineBreak d = true
  · by_cases hlast : ∀ d ∈ a.getLast?, isLineBreak d = true
    · exact .inr (.inr ⟨_, widen_bare hempty hlast hhead, isBoundary_append a b,
        bare_of_split hlast hhead⟩)
    · rcases List.eq_nil_or_concat a with rfl | ⟨front, c, rfl⟩
      · exact absurd (by simp) hlast
      · rw [List.concat_eq_append] at *
        have hc : isLineBreak c = false := by simpa using hlast
        rw [List.append_assoc, List.singleton_append] at hempty ⊢
        rw [byteLength_append] at hempty
        exact .inr (.inl ⟨front, c, b, rfl, widen_backward hempty hc hhead⟩)
  · cases b with
    | nil => exact absurd (by simp) hhead
    | cons c b =>
        have hc : isLineBreak c = false := by simpa using hhead
        exact .inr (.inl ⟨a, c, b, rfl, widen_forward hempty hc⟩)

theorem widen_wellPlaced (text : Text) (span : Span) : (widen text span).WellPlaced text := by
  rcases widen_cases text span with ⟨-, h⟩ | ⟨a, c, b, rfl, h⟩ | ⟨offset, h, hboundary, -⟩
  · rw [h]
    exact clampSpan_wellPlaced text span
  · rw [h]
    refine .of_boundaries (Nat.le_add_right _ _) (isBoundary_append a (c :: b)) ?_
    have hboundary := isBoundary_append (a ++ [c]) b
    rwa [List.append_assoc, byteLength_append] at hboundary
  · rw [h]
    exact .of_boundaries (Nat.le_refl _) hboundary hboundary

/-- A widened span is empty only where there is nothing to show. -/
theorem bare_of_widen_isEmpty {text : Text} {span : Span} (h : (widen text span).isEmpty = true) :
    Bare text (widen text span).start := by
  have heq : (widen text span).start = (widen text span).stop := by simpa [Span.isEmpty] using h
  rcases widen_cases text span with ⟨hlt, h⟩ | ⟨a, c, b, rfl, h⟩ | ⟨offset, h, -, hbare⟩
  · rw [h] at heq
    omega
  · rw [h] at heq
    have := c.utf8Size_pos
    simp only at heq
    omega
  · rw [h]
    exact hbare

theorem widen_of_wellPlaced {text : Text} {span : Span} (h : span.WellPlaced text)
    (hne : span.isEmpty = false) : widen text span = span := by
  have hne : span.start ≠ span.stop := by simpa [Span.isEmpty] using hne
  unfold widen
  rw [clampSpan_of_wellPlaced h]
  exact if_pos hne

end Text

end Dockerfile
