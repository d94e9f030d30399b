import Dockerfile.Proofs.Body.Run
import Dockerfile.Proofs.Text.Casing

/-!
# Reading letters in other cases

No reader of a body looks at the case of a letter: the marks it looks for have one case only. If
letters are changed in case, and stay in their places, every line is read as before, with the letters
changed (`Body.logicalLines_recased`).
-/

namespace Dockerfile

/-- Characters get other cases and keep their places. -/
structure Recasing (f : Placed → Placed) : Prop where
  offset : ∀ p, (f p).offset = p.offset
  lower : ∀ p, (f p).char.toLower = p.char.toLower

def Excerpt.mapChars (f : Placed → Placed) (e : Excerpt) : Excerpt :=
  { e with chars := e.chars.map f }

def Instruction.mapChars (f : Placed → Placed) (inst : Instruction) : Instruction :=
  { inst with keyword := inst.keyword.mapChars f, region := inst.region.mapChars f }

namespace Recasing

variable {f : Placed → Placed} (hf : Recasing f)
include hf

/-! ## Characters -/

theorem char_iff {c : Char} (hc : Caseless c) (p : Placed) : (f p).char = c ↔ p.char = c := by
  rw [← hc.toLower_eq_iff, hf.lower, hc.toLower_eq_iff]

theorem size (p : Placed) : (f p).size = p.size := by
  rw [Placed.size, Placed.size, ← utf8Size_toLower, hf.lower, utf8Size_toLower]

theorem stop (p : Placed) : (f p).stop = p.stop := by
  rw [Placed.stop, Placed.stop, hf.offset, hf.size]

theorem isBlank (p : Placed) : Dockerfile.isBlank (f p).char = Dockerfile.isBlank p.char := by
  rw [← isBlank_toLower, hf.lower, isBlank_toLower]

theorem isLineBreak (p : Placed) :
    Dockerfile.isLineBreak (f p).char = Dockerfile.isLineBreak p.char := by
  rw [← isLineBreak_toLower, hf.lower, isLineBreak_toLower]

theorem endsWord (p : Placed) : Body.endsWord (f p).char = Body.endsWord p.char := by
  rw [Body.endsWord, Body.endsWord, hf.isBlank, hf.isLineBreak]

theorem startOr (stop : Nat) (chars : List Placed) :
    Placed.startOr stop (chars.map f) = Placed.startOr stop chars := by
  cases chars with
  | nil => rfl
  | cons p chars => exact hf.offset p

theorem stopOr (anchor : Nat) (chars : List Placed) :
    Placed.stopOr anchor (chars.map f) = Placed.stopOr anchor chars := by
  unfold Placed.stopOr
  rw [List.getLast?_map]
  cases chars.getLast? with
  | none => rfl
  | some p => exact hf.stop p

theorem span (e : Excerpt) : (e.mapChars f).span = e.span := by
  simp only [Excerpt.span, Excerpt.start, Excerpt.stop, Excerpt.mapChars, hf.startOr, hf.stopOr]

theorem lowercase_text (chars : List Placed) :
    Text.lowercase (Placed.text (chars.map f)) = Text.lowercase (Placed.text chars) := by
  simp only [Text.lowercase, Placed.text, List.map_map]
  exact List.map_congr_left fun p _ => hf.lower p

omit hf in
theorem takeWhile {g : Char → Bool} (hg : ∀ p, g (f p).char = g p.char) (chars : List Placed) :
    (chars.map f).takeWhile (fun p => g p.char) = (chars.takeWhile fun p => g p.char).map f := by
  rw [List.takeWhile_map]
  simp only [Function.comp_def, hg]

omit hf in
theorem dropWhile {g : Char → Bool} (hg : ∀ p, g (f p).char = g p.char) (chars : List Placed) :
    (chars.map f).dropWhile (fun p => g p.char) = (chars.dropWhile fun p => g p.char).map f := by
  rw [List.dropWhile_map]
  simp only [Function.comp_def, hg]

/-! ## Readers -/

theorem afterNewline? (chars : List Placed) :
    Dockerfile.afterNewline? (chars.map f) = (Dockerfile.afterNewline? chars).map (List.map f) := by
  cases chars with
  | nil => rfl
  | cons p rest =>
      have hhead : (rest.map f).head?.map Placed.char = some '\n' ↔
          rest.head?.map Placed.char = some '\n' := by
        cases rest with
        | nil => rfl
        | cons q rest => simpa using hf.char_iff (by decide : Caseless '\n') q
      rw [List.map_cons, afterNewline?_cons, afterNewline?_cons, hf.isLineBreak, ← List.map_tail]
      simp only [hhead, hf.char_iff (by decide : Caseless '\r') p]
      split
      · rw [Option.map_some, apply_ite (List.map f)]
      · rfl

theorem dropNewline (chars : List Placed) :
    Dockerfile.dropNewline (chars.map f) = (Dockerfile.dropNewline chars).map f := by
  unfold Dockerfile.dropNewline
  rw [hf.afterNewline?]
  cases Dockerfile.afterNewline? chars <;> rfl

theorem afterContinuation? {escape : Char} (he : Caseless escape) (chars : List Placed) :
    Dockerfile.afterContinuation? escape (chars.map f) =
      (Dockerfile.afterContinuation? escape chars).map (List.map f) := by
  cases chars with
  | nil => rfl
  | cons p rest =>
      rw [List.map_cons, Dockerfile.afterContinuation?, Dockerfile.afterContinuation?,
        dropWhile hf.isBlank, hf.afterNewline?]
      simp only [hf.char_iff he]
      split <;> rfl

theorem comment_read (stop start : Nat) (chars : List Placed) :
    (Comment.read stop start (chars.map f)).2 = (Comment.read stop start chars).2.map f := by
  have hclean : ∀ p, (!Dockerfile.isLineBreak (f p).char) = !Dockerfile.isLineBreak p.char :=
    fun p => congrArg not (hf.isLineBreak p)
  simp only [Comment.read, dropWhile (g := fun c => !Dockerfile.isLineBreak c) hclean, hf.dropNewline]

theorem skipLines (stop : Nat) (chars : List Placed) :
    (Body.skipLines stop (chars.map f)).rest = (Body.skipLines stop chars).rest.map f ∧
      (Body.skipLines stop (chars.map f)).emptyLines = (Body.skipLines stop chars).emptyLines := by
  have hdrop := dropWhile hf.isBlank chars
  fun_induction Body.skipLines stop chars with
  | case1 chars hc =>
      rw [hc] at hdrop
      rw [Body.skipLines_of_nil hdrop]
      exact ⟨rfl, rfl⟩
  | case2 chars p rest hc hp next ih =>
      rw [hc] at hdrop
      obtain ⟨hrest, hlines⟩ := ih (dropWhile hf.isBlank _)
      rw [Body.skipLines_of_break hdrop (by rw [hf.isLineBreak]; exact hp), ← List.map_cons,
        hf.dropNewline, hf.startOr, hf.offset, hlines]
      exact ⟨hrest, rfl⟩
  | case3 chars p rest hc hb hp comment next ih =>
      rw [hc] at hdrop
      rw [Body.skipLines_of_comment hdrop ((hf.char_iff (by decide) p).mpr hp), hf.offset,
        hf.comment_read]
      exact ih (dropWhile hf.isBlank _)
  | case4 chars p rest hc hb hp =>
      rw [hc] at hdrop
      rw [Body.skipLines_of_content hdrop (by rw [hf.isLineBreak]; simpa using hb)
        (mt (hf.char_iff (by decide) p).mp hp)]
      exact ⟨rfl, rfl⟩

theorem readUntil {ends : Char → Bool} (hends : ∀ p, ends (f p).char = ends p.char) {escape : Char}
    (he : Caseless escape) (stop : Nat) (chars : List Placed) :
    (Body.readUntil ends escape stop (chars.map f)).chars =
        (Body.readUntil ends escape stop chars).chars.map f ∧
      (Body.readUntil ends escape stop (chars.map f)).emptyLines =
        (Body.readUntil ends escape stop chars).emptyLines ∧
      (Body.readUntil ends escape stop (chars.map f)).rest =
        (Body.readUntil ends escape stop chars).rest.map f := by
  fun_induction Body.readUntil ends escape stop chars with
  | case1 =>
      rw [List.map_nil, Body.readUntil]
      exact ⟨rfl, rfl, rfl⟩
  | case2 p rest after hc skipped next ih =>
      have hcont := hf.afterContinuation? he (p :: rest)
      rw [hc] at hcont
      obtain ⟨hrest, hlines⟩ := hf.skipLines stop after
      rw [List.map_cons, Body.readUntil_of_continuation hcont, hrest, hlines]
      exact ⟨ih.1, congrArg ((Body.skipLines stop after).emptyLines ++ ·) ih.2.1, ih.2.2⟩
  | case3 p rest hc hp =>
      have hcont := hf.afterContinuation? he (p :: rest)
      rw [hc] at hcont
      rw [List.map_cons, Body.readUntil_of_end hcont (by rw [hends]; exact hp)]
      exact ⟨rfl, rfl, rfl⟩
  | case4 p rest hc hp next ih =>
      have hcont := hf.afterContinuation? he (p :: rest)
      rw [hc] at hcont
      rw [List.map_cons, Body.readUntil_of_char hcont (by rw [hends]; simpa using hp)]
      exact ⟨congrArg (f p :: ·) ih.1, ih.2.1, ih.2.2⟩

end Recasing

namespace Body

variable {f : Placed → Placed} (hf : Recasing f) {escape : Char} (he : Caseless escape) (stop : Nat)
include hf he

theorem lineAt_recased (chars : List Placed) :
    lineAt escape stop (chars.map f) = (lineAt escape stop chars).mapChars f := by
  obtain ⟨hchars, hlines, hrest⟩ := hf.readUntil hf.endsWord he stop chars
  obtain ⟨hchars', hlines', -⟩ :=
    hf.readUntil hf.isLineBreak he stop (readUntil endsWord escape stop chars).rest
  have hword : ∀ chars anchor, (⟨chars.map f, anchor⟩ : Excerpt) = Excerpt.mapChars f ⟨chars, anchor⟩ :=
    fun _ _ => rfl
  have hstop : ∀ e : Excerpt, (e.mapChars f).stop = e.stop := fun e => hf.stopOr e.anchor e.chars
  simp only [lineAt, hchars, hlines, hrest, hchars', hlines', hf.startOr]
  simp only [Instruction.ofParts, hword, hf.span, hstop]
  rfl

theorem afterLine_recased (chars : List Placed) :
    afterLine escape stop (chars.map f) = (afterLine escape stop chars).map f := by
  have hrest : (readUntil endsWord escape stop (chars.map f)).rest =
      (readUntil endsWord escape stop chars).rest.map f := (hf.readUntil hf.endsWord he stop chars).2.2
  rw [afterLine, afterKeyword, hrest]
  exact (hf.readUntil hf.isLineBreak he stop _).2.2

/-- The lines of a body are the same lines with letters in other cases. -/
theorem logicalLines_recased (chars : List Placed) :
    logicalLines escape stop (chars.map f) =
      (logicalLines escape stop chars).map (Instruction.mapChars f) := by
  have hdrop := Recasing.dropWhile hf.endsWord chars
  fun_induction logicalLines escape stop chars with
  | case1 chars hc =>
      rw [hc] at hdrop
      rw [(read_of_nil hdrop).2]
      rfl
  | case2 chars p rest hc hmark ih =>
      rw [hc] at hdrop
      rw [(read_of_comment hdrop ((hf.char_iff (by decide) p).mpr hmark)).2, hf.offset,
        hf.comment_read, ih (Recasing.dropWhile hf.endsWord _)]
  | case3 chars p rest hc hmark ih =>
      rw [hc] at hdrop
      rw [(read_of_line hdrop (mt (hf.char_iff (by decide) p).mp hmark)).2, ← List.map_cons,
        lineAt_recased hf he, afterLine_recased hf he, hf.dropNewline,
        ih (Recasing.dropWhile hf.endsWord _)]
      rfl

end Body

end Dockerfile
