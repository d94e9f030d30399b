import Dockerfile.Proofs.Body.Readers

/-!
# A line as one run

`Body.read` reads a line in two runs, one for the keyword and one for the region. Both pass the same
continuations, so together they are one run up to the end of the line (`Body.readUntil_isLineBreak`):
the keyword is what this run keeps up to its first blank, and the region is what it keeps behind.
-/

namespace Dockerfile

namespace Body

/-! ## Equations of the readers -/

section Equations

variable {ends : Char → Bool} {escape : Char} {stop : Nat} {chars rest after : List Placed}
  {p : Placed}

theorem readUntil_of_continuation (h : afterContinuation? escape (p :: rest) = some after) :
    readUntil ends escape stop (p :: rest) =
      { readUntil ends escape stop (skipLines stop after).rest with
        emptyLines := (skipLines stop after).emptyLines ++
          (readUntil ends escape stop (skipLines stop after).rest).emptyLines
        comments := (skipLines stop after).comments ++
          (readUntil ends escape stop (skipLines stop after).rest).comments } := by
  rw [readUntil]
  split
  · rename_i h'
    rw [h] at h'
    cases h'
    rfl
  · rename_i h'
    rw [h] at h'
    cases h'

theorem readUntil_of_end (h : afterContinuation? escape (p :: rest) = none)
    (hp : ends p.char = true) : readUntil ends escape stop (p :: rest) = ⟨[], [], [], p :: rest⟩ := by
  rw [readUntil]
  split
  · rename_i h'
    rw [h] at h'
    cases h'
  · rw [if_pos hp]

theorem readUntil_of_char (h : afterContinuation? escape (p :: rest) = none)
    (hp : ends p.char = false) :
    readUntil ends escape stop (p :: rest) =
      { readUntil ends escape stop rest with
        chars := p :: (readUntil ends escape stop rest).chars } := by
  rw [readUntil]
  split
  · rename_i h'
    rw [h] at h'
    cases h'
  · rw [hp]
    rfl

theorem skipLines_of_nil (h : (chars.dropWhile fun q => isBlank q.char) = []) :
    skipLines stop chars = ⟨[], [], chars⟩ := by
  rw [skipLines]
  split
  · rfl
  · rename_i h'
    rw [h] at h'
    cases h'

theorem skipLines_of_break (h : (chars.dropWhile fun q => isBlank q.char) = p :: rest)
    (hp : isLineBreak p.char = true) :
    skipLines stop chars =
      { skipLines stop (dropNewline (p :: rest)) with
        emptyLines := ⟨Placed.startOr stop chars, p.offset⟩ ::
          (skipLines stop (dropNewline (p :: rest))).emptyLines } := by
  rw [skipLines]
  split
  · rename_i h'
    rw [h] at h'
    cases h'
  · rename_i h'
    rw [h] at h'
    cases h'
    rw [if_pos hp]

theorem skipLines_of_comment (h : (chars.dropWhile fun q => isBlank q.char) = p :: rest)
    (hp : p.char = '#') :
    skipLines stop chars =
      { skipLines stop (Comment.read stop p.offset rest).2 with
        comments := (Comment.read stop p.offset rest).1 ::
          (skipLines stop (Comment.read stop p.offset rest).2).comments } := by
  rw [skipLines]
  split
  · rename_i h'
    rw [h] at h'
    cases h'
  · rename_i h'
    rw [h] at h'
    cases h'
    rw [if_neg (by simp [hp, isLineBreak]), if_pos hp]

theorem skipLines_of_content (h : (chars.dropWhile fun q => isBlank q.char) = p :: rest)
    (hb : isLineBreak p.char = false) (hp : p.char ≠ '#') :
    skipLines stop chars = ⟨[], [], chars⟩ := by
  rw [skipLines]
  split
  · rfl
  · rename_i h'
    rw [h] at h'
    cases h'
    rw [if_neg (by simp [hb]), if_neg hp]

end Equations

/-! ## Two runs in one -/

variable {escape : Char} {stop : Nat}

/-- The run of a line is that of its keyword and then that of its region. -/
theorem readUntil_isLineBreak (chars : List Placed) :
    readUntil isLineBreak escape stop chars =
      ⟨(lineAt escape stop chars).chars, (lineAt escape stop chars).emptyLines,
        commentsIn escape stop chars, afterLine escape stop chars⟩ := by
  unfold lineAt commentsIn afterLine afterKeyword Instruction.chars
  simp only [Instruction.ofParts]
  fun_induction readUntil endsWord escape stop chars with
  | case1 => rfl
  | case2 p rest after hc skipped next ih =>
      rw [readUntil_of_continuation hc]
      simp only [skipped, next, List.append_assoc] at ih ⊢
      rw [ih]
  | case3 p rest hc hp => rfl
  | case4 p rest hc hp next ih =>
      have hb : isLineBreak p.char = false := by
        cases h : isLineBreak p.char with
        | false => rfl
        | true => exact absurd (endsWord_of_isLineBreak h) hp
      rw [readUntil_of_char hc hb]
      simp only [next] at ih ⊢
      rw [ih]
      rfl

theorem lineAt_chars (chars : List Placed) :
    (lineAt escape stop chars).chars = (readUntil isLineBreak escape stop chars).chars := by
  rw [readUntil_isLineBreak]

theorem lineAt_emptyLines (chars : List Placed) :
    (lineAt escape stop chars).emptyLines = (readUntil isLineBreak escape stop chars).emptyLines := by
  rw [readUntil_isLineBreak]

theorem commentsIn_eq (chars : List Placed) :
    commentsIn escape stop chars = (readUntil isLineBreak escape stop chars).comments := by
  rw [readUntil_isLineBreak]

theorem afterLine_eq (chars : List Placed) :
    afterLine escape stop chars = (readUntil isLineBreak escape stop chars).rest := by
  rw [readUntil_isLineBreak]

theorem isLineBreak_afterLine (chars : List Placed) :
    ∀ p ∈ (afterLine escape stop chars).head?, isLineBreak p.char = true := by
  intro p hp
  rw [afterLine_eq] at hp
  rcases readUntil_rest isLineBreak escape stop chars with hnil | ⟨q, tail, hcons, hq⟩
  · rw [hnil] at hp
    cases hp
  · rw [hcons] at hp
    cases Option.mem_some.mp hp
    exact hq

theorem readUntil_chars (ends : Char → Bool) (chars : List Placed) :
    ∀ p ∈ (readUntil ends escape stop chars).chars, ends p.char = false := by
  fun_induction readUntil ends escape stop chars with
  | case1 => simp
  | case2 _ _ _ _ _ _ ih => exact ih
  | case3 => simp
  | case4 p rest _ hp next ih =>
      intro q hq
      rcases List.mem_cons.mp hq with rfl | hq
      · simpa using hp
      · exact ih q hq

theorem afterContinuation?_rest (ends : Char → Bool) (chars : List Placed) :
    afterContinuation? escape (readUntil ends escape stop chars).rest = none := by
  fun_induction readUntil ends escape stop chars with
  | case1 => rfl
  | case2 _ _ _ _ _ _ ih => exact ih
  | case3 _ _ hc _ => exact hc
  | case4 _ _ _ _ _ ih => exact ih

/-- The region starts with the blank that ends the keyword. -/
theorem region_head (chars : List Placed) :
    (lineAt escape stop chars).region.chars = [] ∨
      ∃ p tail, (lineAt escape stop chars).region.chars = p :: tail ∧ isBlank p.char = true := by
  show (readUntil isLineBreak escape stop (afterKeyword escape stop chars)).chars = [] ∨ _
  have hc : afterContinuation? escape (afterKeyword escape stop chars) = none :=
    afterContinuation?_rest endsWord chars
  rcases readUntil_rest endsWord escape stop chars with h | ⟨p, tail, h, hp⟩
  · left
    unfold afterKeyword
    rw [h, readUntil]
  · have hregion : (lineAt escape stop chars).region.chars =
        (readUntil isLineBreak escape stop (p :: tail)).chars := by
      rw [← h]
      rfl
    unfold afterKeyword at hc ⊢
    rw [h] at hc ⊢
    cases hb : isLineBreak p.char with
    | true =>
        left
        rw [readUntil_of_end hc hb]
    | false =>
        right
        rw [hregion, readUntil_of_char hc hb]
        refine ⟨p, _, rfl, ?_⟩
        simpa [endsWord, hb] using hp

theorem keyword_eq (chars : List Placed) :
    (lineAt escape stop chars).keyword.chars =
        (lineAt escape stop chars).chars.takeWhile (fun p => !isBlank p.char) ∧
      (lineAt escape stop chars).region.chars =
        (lineAt escape stop chars).chars.dropWhile fun p => !isBlank p.char := by
  have hkeyword : ∀ p ∈ (lineAt escape stop chars).keyword.chars, (!isBlank p.char) = true := by
    intro p hp
    have := readUntil_chars endsWord chars p hp
    simp only [endsWord, Bool.or_eq_false_iff] at this
    simp [this.1]
  unfold Instruction.chars
  rw [List.takeWhile_append_of_pos hkeyword, List.dropWhile_append_of_pos hkeyword]
  rcases region_head chars with h | ⟨p, tail, h, hp⟩
  · rw [h]
    simp
  · rw [h]
    simp [hp]

/-- A line has a keyword if and only if it does not start with a blank. -/
theorem isNamed_lineAt_iff (chars : List Placed) :
    (lineAt escape stop chars).isNamed = true ↔
      ∃ p rest, (lineAt escape stop chars).chars = p :: rest ∧ isBlank p.char = false := by
  have hnamed : (lineAt escape stop chars).isNamed =
      !((lineAt escape stop chars).chars.takeWhile fun p => !isBlank p.char).isEmpty := by
    rw [← (keyword_eq chars).1]
    rfl
  rw [hnamed]
  cases (lineAt escape stop chars).chars with
  | nil => simp
  | cons p rest => cases hp : isBlank p.char <;> simp [hp]

end Body

end Dockerfile
