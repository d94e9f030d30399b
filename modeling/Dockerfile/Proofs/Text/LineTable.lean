import Dockerfile.Proofs.Text.Buffer

/-!
# The table of lines

The lines of a text, by their numbers, divide it: put together with their terminators they are the text,
each starts where those in front of it end, and every offset is in one of them
(`Text.lines_partition`). All of it is read off the cut in front of a line (`Text.Cut`).
-/

namespace Dockerfile

namespace Text

variable {text : Text}

theorem line_eq_getElem {number : Nat} (h : number < (lines text).length) :
    line text number = (lines text)[number] := by
  rw [line, List.getElem?_eq_getElem h, Option.getD_some]

/-- The lines of a text divide it. -/
structure IsPartition (text : Text) : Prop where
  start_zero : lineStart text 0 = 0
  start_lt : ∀ number later, number < later → later < (lines text).length →
    lineStart text number < lineStart text later
  clean : ∀ number, ∀ c ∈ (line text number).content, c ≠ '\r' ∧ c ≠ '\n'
  joined : (lines text).flatMap Line.whole = text
  /-- A line other than the last has a terminator, which ends there: a `\r` does if the next line does
  not start with the `\n` that would belong to it. -/
  terminated : ∀ number, number + 1 < (lines text).length →
    IsTerminator (line text number).terminator (((lines text).drop (number + 1)).flatMap Line.whole)
  unterminated : ∀ number, number + 1 = (lines text).length → (line text number).terminator = []
  start_eq : ∀ number < (lines text).length,
    lineStart text number = byteLength (((lines text).take number).flatMap Line.whole)
  content_eq : ∀ number < (lines text).length,
    slice text ⟨lineStart text number, lineStop text number⟩ = (line text number).content
  /-- The line of an offset starts at or in front of it, or of the end of the text, and the next one
  starts behind that. -/
  lineOf_eq_iff : ∀ offset number, lineOf text offset = number ↔
    number < (lines text).length ∧ lineStart text number ≤ min offset (byteLength text) ∧
      (number + 1 < (lines text).length →
        min offset (byteLength text) < lineStart text (number + 1))

theorem lineStart_lt {number later : Nat} (hlt : number < later) (hlater : later < (lines text).length) :
    lineStart text number < lineStart text later := by
  have hapart := List.pairwise_iff_getElem.mp (lined_lines text).pairwise number later
    (by omega) hlater hlt
  rw [lineStart, lineStart, line_eq_getElem hlater, line_eq_getElem (by omega)]
  unfold Line.stop at hapart
  omega

theorem line_clean (number : Nat) {c : Char} (hc : c ∈ (line text number).content) :
    c ≠ '\r' ∧ c ≠ '\n' := by
  by_cases h : number < (lines text).length
  · rw [line_eq_getElem h] at hc
    have hclean := ((lined_lines text).breaks (List.getElem_mem h)).1 c hc
    constructor
    · rintro rfl
      cases hclean
    · rintro rfl
      cases hclean
  · rw [line, List.getElem?_eq_none (by omega)] at hc
    cases hc

theorem line_ends {number : Nat} (h : number < (lines text).length) :
    (number + 1 = (lines text).length ∧ (line text number).terminator = []) ∨
      (number + 1 < (lines text).length ∧ IsTerminator (line text number).terminator
        (((lines text).drop (number + 1)).flatMap Line.whole)) := by
  obtain ⟨front, rest, before, line, after, hcut, rfl⟩ := Cut.exists_of_lt h
  have hdrop : (lines text).drop (before.length + 1) = after := by
    rw [hcut.lines_eq]
    simp
  have hlength : (lines text).length = before.length + 1 + after.length := by
    rw [hcut.lines_eq, List.length_append, List.length_cons]
    omega
  obtain ⟨rest', -, -, -, hends⟩ := hcut.exists_next
  rw [hcut.line_eq, hdrop, hlength]
  rcases hends with ⟨rfl, hterminator, -⟩ | ⟨hterminator, hnext⟩
  · exact .inl ⟨rfl, hterminator⟩
  · have hne := List.length_pos_iff.mpr hnext.lined.ne_nil
    rw [← hnext.lined.text_eq]
    exact .inr ⟨by omega, hterminator⟩

theorem lineStart_eq {number : Nat} (h : number < (lines text).length) :
    lineStart text number = byteLength (((lines text).take number).flatMap Line.whole) := by
  obtain ⟨front, rest, before, line, after, hcut, rfl⟩ := Cut.exists_of_lt h
  have htake : (lines text).take before.length = before := by
    rw [hcut.lines_eq, List.take_left]
  rw [htake, ← hcut.front_eq, lineStart, hcut.line_eq, hcut.start_eq]

theorem slice_line {number : Nat} (h : number < (lines text).length) :
    slice text ⟨lineStart text number, lineStop text number⟩ = (line text number).content := by
  obtain ⟨front, rest, before, line, after, hcut, rfl⟩ := Cut.exists_of_lt h
  obtain ⟨rest', hrest, -⟩ := hcut.exists_next
  rw [lineStart, lineStop, hcut.line_eq, Line.stop, hcut.start_eq]
  have htext : text = front ++ (line.content ++ (line.terminator ++ rest')) := by
    rw [← hrest]
    exact hcut.split
  exact (congrArg (fun text => slice text _) htext).trans (slice_append _ _ _)

theorem le_lineOf_iff_lineStart {number : Nat} (h : number < (lines text).length) (offset : Nat) :
    number ≤ lineOf text offset ↔ lineStart text number ≤ min offset (byteLength text) := by
  obtain ⟨front, rest, before, line, after, hcut, rfl⟩ := Cut.exists_of_lt h
  have hle := hcut.le_lineOf_iff (Nat.min_le_right offset (byteLength text))
  have hmin : lineOf text (min offset (byteLength text)) = lineOf text offset := by
    rw [lineOf, lineOf, Nat.min_assoc, Nat.min_self]
  rw [hmin] at hle
  rw [hle, lineStart, hcut.line_eq]

theorem lineOf_eq_iff (offset number : Nat) :
    lineOf text offset = number ↔
      number < (lines text).length ∧ lineStart text number ≤ min offset (byteLength text) ∧
        (number + 1 < (lines text).length →
          min offset (byteLength text) < lineStart text (number + 1)) := by
  have hlt := lineOf_lt text offset
  constructor
  · rintro rfl
    refine ⟨hlt, (le_lineOf_iff_lineStart hlt offset).mp (Nat.le_refl _), fun hnext => ?_⟩
    have := (le_lineOf_iff_lineStart hnext offset).not
    omega
  · rintro ⟨hnumber, hstart, hnext⟩
    have hle := (le_lineOf_iff_lineStart hnumber offset).mpr hstart
    by_cases hlast : number + 1 < (lines text).length
    · have := (le_lineOf_iff_lineStart hlast offset).not
      have := hnext hlast
      omega
    · omega

/-- The lines of a text divide it: they start one behind the other from zero on, have no line break in
them, give back the text together with their terminators, and every offset is in just one of them. -/
theorem lines_partition (text : Text) : IsPartition text where
  start_zero := by
    rw [lineStart_eq (List.length_pos_iff.mpr (lined_lines text).ne_nil)]
    rfl
  start_lt := fun _ _ => lineStart_lt
  clean := fun number _ => line_clean number
  joined := (lined_lines text).text_eq.symm
  terminated := fun number h => by
    rcases line_ends (Nat.lt_of_succ_lt h) with ⟨hlast, -⟩ | ⟨-, hends⟩
    · omega
    · exact hends
  unterminated := fun number h => by
    rcases line_ends (Nat.lt_of_succ_le h.le) with ⟨-, hends⟩ | ⟨hlt, -⟩
    · exact hends
    · omega
  start_eq := fun _ => lineStart_eq
  content_eq := fun _ => slice_line
  lineOf_eq_iff := lineOf_eq_iff

/-- A `\r` in front of a `\r\n` ends a line of its own, and behind the last `\n` there is an empty line. -/
example : (lines "a\r\r\nb\n".toList).map Line.whole =
    ["a\r".toList, "\r\n".toList, "b\n".toList, []] := by decide

end Text

end Dockerfile
