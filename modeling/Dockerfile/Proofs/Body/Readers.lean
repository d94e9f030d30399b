import Dockerfile.Proofs.Body.Tiling

/-!
# What the readers pass and keep

Each reader of `Dockerfile.Body` produces a tiling of the characters it reads. Reading a whole body
does so too once the lines without a keyword are counted in: `Body.logicalLines` lists every line
that is read, and `Body.read` keeps those of them that have a keyword.
-/

namespace Dockerfile

/-- A terminator is a line break, and a second one exactly if the two are `\r` and `\n`. -/
theorem afterNewline?_cons (p : Placed) (rest : List Placed) :
    afterNewline? (p :: rest) =
      if isLineBreak p.char then
        some (if p.char = '\r' ∧ rest.head?.map Placed.char = some '\n' then rest.tail else rest)
      else none := by
  unfold afterNewline?
  by_cases hr : p.char = '\r'
  · cases rest with
    | nil => simp [hr, isLineBreak]
    | cons q rest =>
        by_cases hq : q.char = '\n' <;> simp [hr, hq, isLineBreak]
  · by_cases hn : p.char = '\n' <;> simp [hr, hn, isLineBreak]

theorem exists_of_afterNewline? {chars rest : List Placed} (h : afterNewline? chars = some rest) :
    ∃ ends, chars = ends ++ rest ∧ ends ≠ [] ∧ ∀ p ∈ ends, isLineBreak p.char = true := by
  cases chars with
  | nil => simp [afterNewline?] at h
  | cons p tail =>
      rw [afterNewline?_cons] at h
      split at h
      · rename_i hp
        split at h
        · rename_i hcrlf
          cases tail with
          | nil => simp at hcrlf
          | cons q tail =>
              have hq : q.char = '\n' := by simpa using hcrlf.2
              cases h
              exact ⟨[p, q], rfl, by simp, by simp [hcrlf.1, hq, isLineBreak]⟩
        · cases h
          exact ⟨[p], rfl, by simp, by simp [hp]⟩
      · cases h

theorem isSome_afterNewline? (p : Placed) (rest : List Placed) :
    (afterNewline? (p :: rest)).isSome = isLineBreak p.char := by
  rw [afterNewline?_cons]
  split <;> simp_all

theorem exists_of_afterContinuation? {escape : Char} {chars rest : List Placed}
    (h : afterContinuation? escape chars = some rest) :
    ∃ p tail, chars = p :: tail ∧ p.char = escape ∧
      afterNewline? (tail.dropWhile fun q => isBlank q.char) = some rest := by
  cases chars with
  | nil => simp [afterContinuation?] at h
  | cons p tail =>
      simp only [afterContinuation?] at h
      split at h
      · rename_i hp
        exact ⟨p, tail, rfl, hp, h⟩
      · cases h

section Tilings

variable {escape : Char} {stop : Nat}

theorem afterNewline?_tiling {chars rest : List Placed} (h : afterNewline? chars = some rest) :
    Tiling escape stop chars [] [] rest := by
  obtain ⟨ends, rfl, -, hends⟩ := exists_of_afterNewline? h
  exact .of_blank fun p hp => .inr (hends p hp)

theorem dropNewline_tiling (chars : List Placed) :
    Tiling escape stop chars [] [] (dropNewline chars) := by
  unfold dropNewline
  cases h : afterNewline? chars with
  | none => exact .done chars
  | some rest => exact afterNewline?_tiling h

theorem dropWhile_tiling (p : Char → Bool)
    (hp : ∀ c, p c = true → isBlank c = true ∨ isLineBreak c = true) (chars : List Placed) :
    Tiling escape stop chars [] [] (chars.dropWhile fun q => p q.char) := by
  have h : Tiling escape stop (chars.takeWhile (fun q => p q.char) ++
      chars.dropWhile fun q => p q.char) [] [] (chars.dropWhile fun q => p q.char) := by
    refine .of_blank fun q hq => hp q.char ?_
    exact List.all_eq_true.mp List.all_takeWhile q hq
  rwa [List.takeWhile_append_dropWhile] at h

theorem dropBlanks_tiling (escape : Char) (stop : Nat) (chars : List Placed) :
    Tiling escape stop chars [] [] (chars.dropWhile fun q => isBlank q.char) :=
  dropWhile_tiling isBlank (fun _ h => .inl h) chars

theorem afterContinuation?_tiling {chars rest : List Placed}
    (h : afterContinuation? escape chars = some rest) :
    Tiling escape stop chars [] [] rest := by
  obtain ⟨p, tail, rfl, -, hrest⟩ := exists_of_afterContinuation? h
  refine .layout (by simp [startsLayout, h]) ?_
  exact (dropBlanks_tiling escape stop tail).trans (afterNewline?_tiling hrest)

theorem Comment.read_tiling {mark : Placed} (h : mark.char = '#') (chars : List Placed) :
    Tiling escape stop (mark :: chars) [(Comment.read stop mark.offset chars).1] []
      (Comment.read stop mark.offset chars).2 := by
  have h : Tiling escape stop (mark :: (chars.takeWhile (fun p => !isLineBreak p.char) ++
      chars.dropWhile fun p => !isLineBreak p.char)) [(Comment.read stop mark.offset chars).1] []
      (Comment.read stop mark.offset chars).2 := .comment h (dropNewline_tiling _)
  rwa [List.takeWhile_append_dropWhile] at h

theorem dropNewline_suffix (chars : List Placed) : dropNewline chars <:+ chars :=
  (dropNewline_tiling chars : Tiling defaultEscape 0 chars [] [] _).suffix

theorem suffix_of_dropWhile {f : Placed → Bool} {chars rest : List Placed} {p : Placed}
    (h : chars.dropWhile f = p :: rest) : p :: rest <:+ chars := by
  rw [← h]
  exact List.dropWhile_suffix f

theorem Comment.read_suffix (stop start : Nat) (chars : List Placed) :
    (Comment.read stop start chars).2 <:+ chars :=
  (dropNewline_suffix _).trans (List.dropWhile_suffix _)

namespace Body

theorem skipLines_tiling (chars : List Placed) :
    Tiling escape stop chars (skipLines stop chars).comments [] (skipLines stop chars).rest := by
  fun_induction skipLines stop chars with
  | case1 chars _ => exact .done chars
  | case2 chars p rest hc _ next ih =>
      have hblank := dropBlanks_tiling escape stop chars
      rw [hc] at hblank
      exact hblank.trans ((dropNewline_tiling _).trans ih)
  | case3 chars p rest hc _ hmark comment next ih =>
      have hblank := dropBlanks_tiling escape stop chars
      rw [hc] at hblank
      exact hblank.trans ((Comment.read_tiling hmark rest).trans ih)
  | case4 chars _ _ _ _ _ => exact .done chars

/-- Reading keeps what it returns and passes the rest. Line breaks have to end it. -/
theorem readUntil_tiling {ends : Char → Bool} (hends : ∀ c, isLineBreak c = true → ends c = true)
    (chars : List Placed) :
    Tiling escape stop chars (readUntil ends escape stop chars).comments
      (readUntil ends escape stop chars).chars (readUntil ends escape stop chars).rest := by
  fun_induction readUntil ends escape stop chars with
  | case1 => exact .done []
  | case2 p rest after hc skipped next ih =>
      exact (afterContinuation?_tiling hc).trans ((skipLines_tiling after).trans ih)
  | case3 p rest _ _ => exact .done (p :: rest)
  | case4 p rest hc hp next ih =>
      refine .keep ?_ ih
      intro hb
      have hbreak : isLineBreak p.char = false := by
        cases h : isLineBreak p.char with
        | false => rfl
        | true => exact absurd (hends _ h) hp
      simp [startsLayout, hb, hbreak, hc]

theorem readUntil_rest (ends : Char → Bool) (escape : Char) (stop : Nat) (chars : List Placed) :
    (readUntil ends escape stop chars).rest = [] ∨
      ∃ p tail, (readUntil ends escape stop chars).rest = p :: tail ∧ ends p.char = true := by
  fun_induction readUntil ends escape stop chars with
  | case1 => exact .inl rfl
  | case2 _ _ _ _ _ _ ih => exact ih
  | case3 p rest _ hp => exact .inr ⟨p, rest, rfl, hp⟩
  | case4 _ _ _ _ _ ih => exact ih

end Body

end Tilings

namespace Instruction

def chars (inst : Instruction) : List Placed :=
  inst.keyword.chars ++ inst.region.chars

def isNamed (inst : Instruction) : Bool :=
  !inst.keyword.isEmpty

end Instruction

namespace Body

def lineAt (escape : Char) (stop : Nat) (chars : List Placed) : Instruction :=
  let keyword := readUntil endsWord escape stop chars
  let region := readUntil isLineBreak escape stop keyword.rest
  let word : Excerpt := ⟨keyword.chars, Placed.startOr stop chars⟩
  Instruction.ofParts word ⟨region.chars, Placed.startOr word.stop keyword.rest⟩
    (keyword.emptyLines ++ region.emptyLines) escape

def afterKeyword (escape : Char) (stop : Nat) (chars : List Placed) : List Placed :=
  (readUntil endsWord escape stop chars).rest

def afterLine (escape : Char) (stop : Nat) (chars : List Placed) : List Placed :=
  (readUntil isLineBreak escape stop (afterKeyword escape stop chars)).rest

def commentsIn (escape : Char) (stop : Nat) (chars : List Placed) : List Comment :=
  (readUntil endsWord escape stop chars).comments ++
    (readUntil isLineBreak escape stop (afterKeyword escape stop chars)).comments

/-- A line that does not start with a blank or a line break takes something. -/
theorem afterLine_length_lt (escape : Char) (stop : Nat) (p : Placed) (rest : List Placed)
    (h : endsWord p.char = false) :
    (afterLine escape stop (p :: rest)).length < (p :: rest).length := by
  have h1 := readUntil_length_lt endsWord escape stop p rest h
  have h2 := readUntil_length isLineBreak escape stop (afterKeyword escape stop (p :: rest))
  unfold afterLine
  unfold afterKeyword at h2 ⊢
  omega

/-- Every line that is read as an instruction, also those without a keyword, which no instruction
comes of. -/
def logicalLines (escape : Char) (stop : Nat) (chars : List Placed) : List Instruction :=
  match _hc : chars.dropWhile fun p => endsWord p.char with
  | [] => []
  | p :: rest =>
      if p.char = '#' then logicalLines escape stop (Comment.read stop p.offset rest).2
      else
        lineAt escape stop (p :: rest) ::
          logicalLines escape stop (dropNewline (afterLine escape stop (p :: rest)))
termination_by chars.length
decreasing_by
  · have h1 := length_dropWhile_le (fun p : Placed => endsWord p.char) chars
    rw [_hc] at h1
    have h2 := Comment.read_length stop p.offset rest
    simp only [List.length_cons] at h1
    omega
  · have h1 := length_dropWhile_le (fun p : Placed => endsWord p.char) chars
    have hhead := @List.head?_dropWhile_not _ (fun p : Placed => endsWord p.char) chars
    rw [_hc] at h1 hhead
    have h2 := afterLine_length_lt escape stop p rest (by simpa using hhead)
    have h3 := dropNewline_length (afterLine escape stop (p :: rest))
    omega

/-! ## Equations -/

section Equations

variable {escape : Char} {stop : Nat} {chars rest : List Placed} {p : Placed}

theorem read_of_nil (h : (chars.dropWhile fun q => endsWord q.char) = []) :
    read escape stop chars = ⟨[], []⟩ ∧ logicalLines escape stop chars = [] := by
  constructor
  · rw [read]
    split
    · rfl
    · rename_i h'
      rw [h] at h'
      cases h'
  · rw [logicalLines]
    split
    · rfl
    · rename_i h'
      rw [h] at h'
      cases h'

theorem read_of_comment (h : (chars.dropWhile fun q => endsWord q.char) = p :: rest)
    (hp : p.char = '#') :
    read escape stop chars =
        { read escape stop (Comment.read stop p.offset rest).2 with
          comments := (Comment.read stop p.offset rest).1 ::
            (read escape stop (Comment.read stop p.offset rest).2).comments } ∧
      logicalLines escape stop chars =
        logicalLines escape stop (Comment.read stop p.offset rest).2 := by
  constructor
  · rw [read]
    split
    · rename_i h'
      rw [h] at h'
      cases h'
    · rename_i h'
      rw [h] at h'
      cases h'
      rw [if_pos hp]
  · rw [logicalLines]
    split
    · rename_i h'
      rw [h] at h'
      cases h'
    · rename_i h'
      rw [h] at h'
      cases h'
      rw [if_pos hp]

theorem read_of_line (h : (chars.dropWhile fun q => endsWord q.char) = p :: rest)
    (hp : p.char ≠ '#') :
    read escape stop chars =
        ⟨commentsIn escape stop (p :: rest) ++
            (read escape stop (dropNewline (afterLine escape stop (p :: rest)))).comments,
          [lineAt escape stop (p :: rest)].filter Instruction.isNamed ++
            (read escape stop (dropNewline (afterLine escape stop (p :: rest)))).instructions⟩ ∧
      logicalLines escape stop chars =
        lineAt escape stop (p :: rest) ::
          logicalLines escape stop (dropNewline (afterLine escape stop (p :: rest))) := by
  constructor
  · rw [read]
    split
    · rename_i h'
      rw [h] at h'
      cases h'
    · rename_i h'
      rw [h] at h'
      cases h'
      rw [if_neg hp]
      have hnamed : (lineAt escape stop (p :: rest)).isNamed =
          !(readUntil endsWord escape stop (p :: rest)).chars.isEmpty := rfl
      rw [List.filter_cons, List.filter_nil, hnamed]
      show Body.mk _ (if (readUntil endsWord escape stop (p :: rest)).chars.isEmpty = true then _
        else _) = _
      cases (readUntil endsWord escape stop (p :: rest)).chars.isEmpty <;> rfl
  · rw [logicalLines]
    split
    · rename_i h'
      rw [h] at h'
      cases h'
    · rename_i h'
      rw [h] at h'
      cases h'
      rw [if_neg hp]

/-- Blanks and line breaks in front of a line do not matter. -/
theorem read_of_dropWhile {chars' : List Placed}
    (h : (chars.dropWhile fun q => endsWord q.char) = chars'.dropWhile fun q => endsWord q.char) :
    read escape stop chars = read escape stop chars' := by
  cases hdrop : chars'.dropWhile fun q => endsWord q.char with
  | nil => rw [(read_of_nil (h.trans hdrop)).1, (read_of_nil hdrop).1]
  | cons p rest =>
      by_cases hp : p.char = '#'
      · rw [(read_of_comment (h.trans hdrop) hp).1, (read_of_comment hdrop hp).1]
      · rw [(read_of_line (h.trans hdrop) hp).1, (read_of_line hdrop hp).1]

end Equations

theorem instructions_read (escape : Char) (stop : Nat) (chars : List Placed) :
    (read escape stop chars).instructions =
      (logicalLines escape stop chars).filter Instruction.isNamed := by
  fun_induction logicalLines escape stop chars with
  | case1 chars hc => rw [(read_of_nil hc).1]; rfl
  | case2 chars p rest hc hmark ih => rw [(read_of_comment hc hmark).1]; exact ih
  | case3 chars p rest hc hmark ih =>
      rw [(read_of_line hc hmark).1]
      show List.filter _ [_] ++ _ = _
      rw [ih, ← List.filter_append]
      rfl

theorem endsWord_of_isLineBreak {c : Char} (h : isLineBreak c = true) : endsWord c = true := by
  simp [endsWord, h]

theorem dropWhile_dropNewline (chars : List Placed) :
    ((dropNewline chars).dropWhile fun p => endsWord p.char) =
      chars.dropWhile fun p => endsWord p.char := by
  unfold dropNewline
  cases hafter : afterNewline? chars with
  | none => rfl
  | some after =>
      obtain ⟨ends, hchars, -, hends⟩ := exists_of_afterNewline? hafter
      rw [hchars, List.dropWhile_append_of_pos fun p hp => endsWord_of_isLineBreak (hends p hp)]
      rfl

/-- A line keeps the characters of its keyword and of its region. -/
theorem line_tiling (escape : Char) (stop : Nat) (chars : List Placed) :
    Tiling escape stop chars (commentsIn escape stop chars) (lineAt escape stop chars).chars
      (afterLine escape stop chars) :=
  (readUntil_tiling (fun _ => endsWord_of_isLineBreak) chars).trans
    (readUntil_tiling (fun _ h => h) _)

theorem dropWords_tiling (escape : Char) (stop : Nat) (chars : List Placed) :
    Tiling escape stop chars [] [] (chars.dropWhile fun p => endsWord p.char) :=
  dropWhile_tiling endsWord (fun c h => by simpa [endsWord] using h) chars

/-- Reading a body keeps exactly the characters of its lines. -/
theorem read_tiling (escape : Char) (stop : Nat) (chars : List Placed) :
    Tiling escape stop chars (read escape stop chars).comments
      ((logicalLines escape stop chars).flatMap Instruction.chars) [] := by
  fun_induction logicalLines escape stop chars with
  | case1 chars hc =>
      have h := dropWords_tiling escape stop chars
      rw [hc] at h
      rw [(read_of_nil hc).1]
      exact h
  | case2 chars p rest hc hmark ih =>
      have h := dropWords_tiling escape stop chars
      rw [hc] at h
      rw [(read_of_comment hc hmark).1]
      exact h.trans ((Comment.read_tiling hmark rest).trans ih)
  | case3 chars p rest hc hmark ih =>
      have h := dropWords_tiling escape stop chars
      rw [hc] at h
      rw [(read_of_line hc hmark).1, List.flatMap_cons]
      exact h.trans ((line_tiling escape stop (p :: rest)).trans ((dropNewline_tiling _).trans ih))

theorem mem_of_mem_logicalLines {escape : Char} {stop : Nat} {chars : List Placed} {line : Instruction}
    (h : line ∈ logicalLines escape stop chars) {p : Placed} (hp : p ∈ line.chars) : p ∈ chars := by
  have hkept := (read_tiling escape stop chars).kept_sublist
  exact hkept.mem (List.mem_append_left _ (List.mem_flatMap.mpr ⟨line, h, hp⟩))

theorem exists_lineAt_of_mem {escape : Char} {stop : Nat} {chars : List Placed} {line : Instruction}
    (h : line ∈ logicalLines escape stop chars) :
    ∃ start, start <:+ chars ∧ line = lineAt escape stop start := by
  fun_induction logicalLines escape stop chars with
  | case1 => simp at h
  | case2 chars p rest hdrop _ ih =>
      obtain ⟨start, hstart, hline⟩ := ih h
      have hsuf : p :: rest <:+ chars := suffix_of_dropWhile hdrop
      have hread := (Comment.read_suffix stop p.offset rest).trans (List.suffix_cons p rest)
      exact ⟨start, hstart.trans (hread.trans hsuf), hline⟩
  | case3 chars p rest hdrop _ ih =>
      have hsuf : p :: rest <:+ chars := suffix_of_dropWhile hdrop
      rcases List.mem_cons.mp h with rfl | h
      · exact ⟨p :: rest, hsuf, rfl⟩
      · obtain ⟨start, hstart, hline⟩ := ih h
        have hrest := (dropNewline_suffix _).trans (line_tiling escape stop (p :: rest)).suffix
        exact ⟨start, hstart.trans (hrest.trans hsuf), hline⟩

end Body

end Dockerfile
