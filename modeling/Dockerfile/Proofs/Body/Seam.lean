import Dockerfile.Proofs.Body.Physical
import Dockerfile.Proofs.Body.Shift

/-!
# Reading two texts as one

Where one text ends a line, another can follow: both are read as if each stood alone, and what is
read of the second is only moved (`Body.ofText_append`). A text ends a line if everything that
begins in it also ends in it (`Body.endsLines`); told from the lines, none of them leaves an
instruction open behind the last (`Body.endsLines_iff`).
-/

namespace Dockerfile

/-! ## Readers in front of more characters -/

def Terminated (chars : List Placed) : Prop :=
  ∀ p ∈ chars.getLast?, isLineBreak p.char = true

theorem Terminated.suffix {chars rest : List Placed} (h : Terminated chars)
    (hs : rest <:+ chars) : Terminated rest := by
  intro p hp
  obtain ⟨front, rfl⟩ := hs
  apply h
  rw [List.getLast?_append, Option.mem_def.mp hp]
  rfl

theorem dropWhile_append_of_ne_nil {f : Placed → Bool} {chars : List Placed}
    (h : chars.dropWhile f ≠ []) (more : List Placed) :
    (chars ++ more).dropWhile f = chars.dropWhile f ++ more := by
  rw [List.dropWhile_append, if_neg (by simpa using h)]

theorem dropWhile_append_cons {f : Placed → Bool} {chars rest : List Placed} {p : Placed}
    (h : chars.dropWhile f = p :: rest) (more : List Placed) :
    (chars ++ more).dropWhile f = p :: (rest ++ more) := by
  rw [dropWhile_append_of_ne_nil (by simp [h]), h, List.cons_append]

theorem dropWhile_ne_nil {f : Placed → Bool} {chars : List Placed} {p : Placed} (hp : p ∈ chars)
    (h : f p = false) : chars.dropWhile f ≠ [] := by
  intro hnil
  have := List.dropWhile_eq_nil_iff.mp hnil p hp
  simp [h] at this

theorem afterNewline?_append {chars after : List Placed} (h : afterNewline? chars = some after)
    (hne : after ≠ []) (more : List Placed) :
    afterNewline? (chars ++ more) = some (after ++ more) := by
  cases chars with
  | nil => cases h
  | cons p rest =>
      rw [afterNewline?_cons] at h
      rw [List.cons_append, afterNewline?_cons]
      split at h
      · rename_i hp
        cases rest with
        | nil =>
            simp only [List.head?_nil, Option.map_none, reduceCtorEq, and_false, if_false,
              Option.some.injEq] at h
            exact absurd h.symm hne
        | cons q rest =>
            cases h
            rw [if_pos hp, List.cons_append, List.head?_cons, List.head?_cons]
            split <;> rfl
      · cases h

theorem afterNewline?_append_none {p : Placed} {rest : List Placed}
    (h : afterNewline? (p :: rest) = none) (more : List Placed) :
    afterNewline? (p :: (rest ++ more)) = none := by
  have hp := isSome_afterNewline? p rest
  rw [h] at hp
  rw [afterNewline?_cons, if_neg (by simp [← hp])]

theorem dropNewline_append {chars : List Placed} (h : dropNewline chars ≠ []) (more : List Placed) :
    dropNewline (chars ++ more) = dropNewline chars ++ more := by
  unfold dropNewline at h ⊢
  cases hnext : afterNewline? chars with
  | some after =>
      rw [hnext] at h
      rw [afterNewline?_append hnext h]
      rfl
  | none =>
      rw [hnext] at h
      obtain ⟨p, rest, rfl⟩ := List.exists_cons_of_ne_nil h
      rw [List.cons_append, afterNewline?_append_none hnext]
      rfl

theorem afterContinuation?_append {escape : Char} {p : Placed} {rest after : List Placed}
    (h : afterContinuation? escape (p :: rest) = some after) (hne : after ≠ [])
    (more : List Placed) :
    afterContinuation? escape (p :: (rest ++ more)) = some (after ++ more) := by
  simp only [afterContinuation?] at h ⊢
  split at h
  · rename_i hp
    have hbreak : (rest.dropWhile fun q => isBlank q.char) ≠ [] := by
      intro hnil
      rw [hnil] at h
      cases h
    rw [if_pos hp, dropWhile_append_of_ne_nil hbreak, afterNewline?_append h hne]
  · cases h

/-- What begins no continuation begins none in front of more characters, if a line break stands
between. -/
theorem Terminated.afterContinuation? {escape : Char} {p : Placed} {rest : List Placed}
    (ends : Terminated rest) (hrest : rest ≠ [])
    (h : afterContinuation? escape (p :: rest) = none) (more : List Placed) :
    Dockerfile.afterContinuation? escape (p :: (rest ++ more)) = none := by
  have hlast := ends _ (List.getLast?_eq_some_getLast hrest)
  have hbreak : (rest.dropWhile fun q => isBlank q.char) ≠ [] :=
    dropWhile_ne_nil (List.getLast_mem hrest) (Body.isBlank_of_isLineBreak hlast)
  simp only [Dockerfile.afterContinuation?] at h ⊢
  rw [dropWhile_append_of_ne_nil hbreak]
  obtain ⟨q, tail, hq⟩ := List.exists_cons_of_ne_nil hbreak
  rw [hq] at h ⊢
  split at h
  · rename_i hp
    rw [if_pos hp, List.cons_append, afterNewline?_append_none h]
  · rename_i hp
    rw [if_neg hp]

theorem Comment.exists_break {stop start : Nat} {chars : List Placed}
    (h : (Comment.read stop start chars).2 ≠ []) : ∃ p ∈ chars, isLineBreak p.char = true := by
  have hhead := List.head?_dropWhile_not (fun p : Placed => !isLineBreak p.char) chars
  unfold read at h
  cases hdrop : chars.dropWhile fun p => !isLineBreak p.char with
  | nil =>
      rw [hdrop] at h
      exact absurd rfl h
  | cons q rest =>
      rw [hdrop] at hhead
      exact ⟨q, (suffix_of_dropWhile hdrop).mem List.mem_cons_self, by simpa using hhead⟩

theorem Comment.read_append {chars : List Placed} (h : ∃ p ∈ chars, isLineBreak p.char = true)
    (stop stop' start : Nat) (more : List Placed) :
    Comment.read stop' start (chars ++ more) = ((Comment.read stop start chars).1,
      dropNewline (chars.dropWhile (fun p => !isLineBreak p.char) ++ more)) := by
  obtain ⟨p, hp, hbreak⟩ := h
  have hne : chars.dropWhile (fun p => !isLineBreak p.char) ≠ [] :=
    dropWhile_ne_nil hp (by simp [hbreak])
  have hdrop := dropWhile_append_of_ne_nil hne more
  have htake : (chars ++ more).takeWhile (fun p => !isLineBreak p.char) =
      chars.takeWhile fun p => !isLineBreak p.char := by
    apply List.append_cancel_right
    rw [List.takeWhile_append_dropWhile, hdrop, ← List.append_assoc,
      List.takeWhile_append_dropWhile]
  unfold read
  rw [hdrop, htake]
  obtain ⟨q, rest, hq⟩ := List.exists_cons_of_ne_nil hne
  rw [hq]
  rfl

namespace Body

variable {escape : Char} {stop : Nat} {more : List Placed}

theorem skipLines_nil (stop : Nat) : skipLines stop [] = ⟨[], [], []⟩ :=
  skipLines_of_nil rfl

/-- Lines are passed as before if they are followed by content. -/
theorem skipLines_append (stop' : Nat) (more : List Placed) {chars : List Placed}
    (h : ∃ p ∈ (skipLines stop chars).rest, isBlank p.char = false) :
    skipLines stop' (chars ++ more) =
      { skipLines stop chars with rest := (skipLines stop chars).rest ++ more } := by
  have hrest : ∀ {rest : List Placed}, (∃ p ∈ (skipLines stop rest).rest, isBlank p.char = false) →
      rest ≠ [] := by
    rintro rest ⟨p, hp, -⟩ rfl
    rw [skipLines_nil] at hp
    cases hp
  fun_induction skipLines stop chars with
  | case1 chars hc =>
      obtain ⟨p, hp, hblank⟩ := h
      exact absurd hc (dropWhile_ne_nil hp hblank)
  | case2 chars p rest hc hp next ih =>
      have hdrop := dropWhile_append_cons hc more
      rw [skipLines_of_break hdrop hp, ← List.cons_append, dropNewline_append (hrest h), ih h]
      cases chars with
      | nil => cases hc
      | cons q chars => rfl
  | case3 chars p rest hc hb hp comment next ih =>
      have hdrop := dropWhile_append_cons hc more
      have hne : comment.2 ≠ [] := hrest h
      have hread : Comment.read stop' p.offset (rest ++ more) = (comment.1, comment.2 ++ more) := by
        rw [Comment.read_append (Comment.exists_break hne) stop, dropNewline_append hne]
        rfl
      rw [skipLines_of_comment hdrop hp, hread, ih h]
  | case4 chars p rest hc hb hp =>
      have hdrop := dropWhile_append_cons hc more
      exact skipLines_of_content hdrop (by simpa using hb) hp

theorem exists_nonblank {chars rest : List Placed} (hs : rest <:+ chars)
    (h : ∃ p ∈ rest, isLineBreak p.char = true) : ∃ p ∈ chars, isBlank p.char = false := by
  obtain ⟨p, hp, hbreak⟩ := h
  exact ⟨p, hs.mem hp, isBlank_of_isLineBreak hbreak⟩

theorem readUntil_suffix {ends : Char → Bool} (hends : ∀ c, isLineBreak c = true → ends c = true)
    (chars : List Placed) : (readUntil ends escape stop chars).rest <:+ chars :=
  (readUntil_tiling hends chars).suffix

/-- A run that stops in front of a line break stays the same. Only a break with nothing behind it
can begin a continuation that was none before. -/
theorem readUntil_append {ends : Char → Bool} (hends : ∀ c, isLineBreak c = true → ends c = true)
    (stop' : Nat) {chars : List Placed} (terminated : Terminated chars)
    (h : ∃ p ∈ (readUntil ends escape stop chars).rest, isLineBreak p.char = true)
    (hlast : ∀ p, (readUntil ends escape stop chars).rest = [p] →
      afterContinuation? escape (p :: more) = none) :
    readUntil ends escape stop' (chars ++ more) =
      { readUntil ends escape stop chars with
        rest := (readUntil ends escape stop chars).rest ++ more } := by
  fun_induction readUntil ends escape stop chars with
  | case1 =>
      obtain ⟨p, hp, -⟩ := h
      cases hp
  | case2 p rest after hc skipped next ih =>
      have hcontent : ∃ q ∈ skipped.rest, isBlank q.char = false :=
        exists_nonblank (readUntil_suffix hends skipped.rest) h
      have hskipped : skipped.rest <:+ after := (@skipLines_tiling escape stop after).suffix
      have hafter : after ≠ [] := by
        rintro rfl
        obtain ⟨q, hq, -⟩ := hcontent
        cases hskipped.mem hq
      have hs : skipped.rest <:+ p :: rest :=
        hskipped.trans (@afterContinuation?_tiling escape stop _ _ hc).suffix
      have hnext : readUntil ends escape stop' (skipped.rest ++ more) =
          { next with rest := next.rest ++ more } := ih (terminated.suffix hs) h hlast
      have hskip : skipLines stop' (after ++ more) =
          { skipped with rest := skipped.rest ++ more } := skipLines_append stop' more hcontent
      rw [List.cons_append, readUntil_of_continuation (afterContinuation?_append hc hafter more),
        hskip, hnext]
  | case3 p rest hc hp =>
      refine readUntil_of_end ?_ hp
      by_cases hrest : rest = []
      · subst hrest
        exact hlast p rfl
      · exact (terminated.suffix (List.suffix_cons _ _)).afterContinuation? hrest hc more
  | case4 p rest hc hp next ih =>
      have hterm := terminated.suffix (List.suffix_cons p rest)
      have hrest : rest ≠ [] := by
        rintro rfl
        exact hp (hends p.char (terminated p rfl))
      rw [List.cons_append,
        readUntil_of_char (hterm.afterContinuation? hrest hc more) (by simpa using hp),
        ih hterm h hlast]

theorem exists_break_of_afterLine {chars : List Placed} (h : afterLine escape stop chars ≠ []) :
    ∃ p ∈ afterLine escape stop chars, isLineBreak p.char = true := by
  have hhead := @isLineBreak_afterLine escape stop chars
  obtain ⟨p, rest, hp⟩ := List.exists_cons_of_ne_nil h
  rw [hp] at hhead ⊢
  exact ⟨p, List.mem_cons_self, hhead p rfl⟩

theorem startOr_append {chars : List Placed} (h : chars ≠ []) (stop stop' : Nat)
    (more : List Placed) : Placed.startOr stop' (chars ++ more) = Placed.startOr stop chars := by
  obtain ⟨p, rest, rfl⟩ := List.exists_cons_of_ne_nil h
  rfl

/-- A line that ends at a line break stays the same. -/
theorem line_append (stop' : Nat) {chars : List Placed} (terminated : Terminated chars)
    (h : afterLine escape stop chars ≠ [])
    (hlast : ∀ p, afterLine escape stop chars = [p] →
      afterContinuation? escape (p :: more) = none) :
    lineAt escape stop' (chars ++ more) = lineAt escape stop chars ∧
      commentsIn escape stop' (chars ++ more) = commentsIn escape stop chars ∧
      afterLine escape stop' (chars ++ more) = afterLine escape stop chars ++ more := by
  have hword : ∀ c, isLineBreak c = true → endsWord c = true := fun _ => endsWord_of_isLineBreak
  have hbreak := exists_break_of_afterLine h
  have hregion_suffix :
      afterLine escape stop chars <:+ (readUntil endsWord escape stop chars).rest :=
    readUntil_suffix (fun _ h => h) _
  have hkeyword_suffix : (readUntil endsWord escape stop chars).rest <:+ chars :=
    readUntil_suffix hword chars
  have hkeyword_rest : (readUntil endsWord escape stop chars).rest ≠ [] := by
    intro hnil
    rw [hnil] at hregion_suffix
    exact h (List.suffix_nil.mp hregion_suffix)
  have hchars : chars ≠ [] := by
    rintro rfl
    exact hkeyword_rest (List.suffix_nil.mp hkeyword_suffix)
  have hkeyword_last : ∀ p, (readUntil endsWord escape stop chars).rest = [p] →
      afterContinuation? escape (p :: more) = none := by
    intro p hp
    rw [hp, List.suffix_cons_iff, List.suffix_nil] at hregion_suffix
    exact hlast p (hregion_suffix.resolve_right h)
  have hkeyword := readUntil_append hword stop' terminated
    (hbreak.imp fun p hp => ⟨hregion_suffix.mem hp.1, hp.2⟩) hkeyword_last
  have hregion := readUntil_append (fun _ h => h) stop' (terminated.suffix hkeyword_suffix) hbreak
    hlast
  unfold lineAt commentsIn afterLine afterKeyword
  rw [hkeyword]
  simp only [hregion, startOr_append hchars stop stop' more]
  refine ⟨?_, trivial, trivial⟩
  rw [startOr_append hkeyword_rest]

/-! ## Texts that end a line -/

/-- Whether everything that begins among these characters also ends among them, at a line break that
does not continue it either once `more` follows. -/
def endsLines (escape : Char) (stop : Nat) (more chars : List Placed) : Bool :=
  match _hc : chars.dropWhile fun p => endsWord p.char with
  | [] => true
  | p :: rest =>
      if p.char = '#' then
        rest.any (fun q => isLineBreak q.char) &&
          endsLines escape stop more (Comment.read stop p.offset rest).2
      else
        !(afterLine escape stop (p :: rest)).isEmpty &&
          (afterContinuation? escape (afterLine escape stop (p :: rest) ++ more)).isNone &&
          endsLines escape stop more (dropNewline (afterLine escape stop (p :: rest)))
termination_by chars.length
decreasing_by
  · have h1 := length_dropWhile_le (fun p : Placed => endsWord p.char) chars
    rw [_hc] at h1
    have h2 := Comment.read_length stop p.offset rest
    simp only [List.length_cons] at h1
    omega
  · have h1 := length_dropWhile_le (fun p : Placed => endsWord p.char) chars
    have hhead := @List.head?_dropWhile_not _ (fun p : Placed => endsWord p.char) chars
    rw [_hc] at h1 hhead
    have h2 := afterLine_length_lt escape stop p rest (by simpa using hhead)
    have h3 := dropNewline_length (afterLine escape stop (p :: rest))
    omega

def append (a b : Body) : Body :=
  ⟨a.comments ++ b.comments, a.instructions ++ b.instructions⟩

theorem read_words_append {front : List Placed} (h : ∀ p ∈ front, endsWord p.char = true)
    (chars : List Placed) : read escape stop (front ++ chars) = read escape stop chars := by
  have hdrop : (front ++ chars).dropWhile (fun p => endsWord p.char) =
      chars.dropWhile fun p => endsWord p.char := List.dropWhile_append_of_pos h
  cases hchars : chars.dropWhile fun p => endsWord p.char with
  | nil =>
      rw [hchars] at hdrop
      rw [(read_of_nil hdrop).1, (read_of_nil hchars).1]
  | cons p rest =>
      rw [hchars] at hdrop
      by_cases hmark : p.char = '#'
      · rw [(read_of_comment hdrop hmark).1, (read_of_comment hchars hmark).1]
      · rw [(read_of_line hdrop hmark).1, (read_of_line hchars hmark).1]

/-- It does not matter whether a terminator is passed with what is in front of it or behind it. -/
theorem read_dropNewline_append (chars more : List Placed) :
    read escape stop (dropNewline (chars ++ more)) =
      read escape stop (dropNewline chars ++ more) := by
  have hdrop : ∀ xs : List Placed, ∃ ends, xs = ends ++ dropNewline xs ∧
      ∀ p ∈ ends, endsWord p.char = true := by
    intro xs
    unfold dropNewline
    cases h : afterNewline? xs with
    | none => exact ⟨[], rfl, by simp⟩
    | some rest =>
        obtain ⟨ends, rfl, -, hends⟩ := exists_of_afterNewline? h
        exact ⟨ends, rfl, fun p hp => endsWord_of_isLineBreak (hends p hp)⟩
  obtain ⟨ends, hall, hends⟩ := hdrop (chars ++ more)
  obtain ⟨ends', hfirst, hends'⟩ := hdrop chars
  calc read escape stop (dropNewline (chars ++ more))
    _ = read escape stop (ends ++ dropNewline (chars ++ more)) := (read_words_append hends _).symm
    _ = read escape stop (ends' ++ (dropNewline chars ++ more)) := by
        rw [← hall, ← List.append_assoc, ← hfirst]
    _ = read escape stop (dropNewline chars ++ more) := read_words_append hends' _

/-- What ends its lines is read as if nothing followed. -/
theorem read_append_of_endsLines (stop' : Nat) {chars : List Placed}
    (terminated : Terminated chars) (h : endsLines escape stop more chars = true) :
    read escape stop' (chars ++ more) =
      append (read escape stop chars) (read escape stop' more) := by
  fun_induction endsLines escape stop more chars with
  | case1 chars hc =>
      have hwords : ∀ p ∈ chars, endsWord p.char = true := List.dropWhile_eq_nil_iff.mp hc
      rw [read_words_append hwords, (read_of_nil hc).1]
      rfl
  | case2 chars p rest hc hmark ih =>
      rw [Bool.and_eq_true, List.any_eq_true] at h
      have hsuf : p :: rest <:+ chars := suffix_of_dropWhile hc
      have hdrop := dropWhile_append_cons hc more
      have hread : read escape stop' (Comment.read stop' p.offset (rest ++ more)).2 =
          append (read escape stop (Comment.read stop p.offset rest).2)
            (read escape stop' more) := by
        rw [Comment.read_append h.1 stop, read_dropNewline_append]
        have hs := (Comment.read_suffix stop p.offset rest).trans (List.suffix_cons p rest)
        exact ih (terminated.suffix (hs.trans hsuf)) h.2
      rw [(read_of_comment hdrop hmark).1, (read_of_comment hc hmark).1, hread,
        Comment.read_append h.1 stop]
      rfl
  | case3 chars p rest hc hmark ih =>
      rw [Bool.and_eq_true, Bool.and_eq_true, Bool.not_eq_true', List.isEmpty_eq_false_iff,
        Option.isNone_iff_eq_none] at h
      obtain ⟨⟨hne, hstop⟩, hrest⟩ := h
      have hlast : ∀ q, afterLine escape stop (p :: rest) = [q] →
          afterContinuation? escape (q :: more) = none := by
        intro q hq
        rwa [hq] at hstop
      have hsuf : p :: rest <:+ chars := suffix_of_dropWhile hc
      have hdrop := dropWhile_append_cons hc more
      obtain ⟨hline, hcomments, hafter⟩ := line_append stop' (terminated.suffix hsuf) hne hlast
      have hs := (dropNewline_suffix _).trans (line_tiling escape stop (p :: rest)).suffix
      rw [List.cons_append] at hline hcomments hafter
      rw [(read_of_line hdrop hmark).1, (read_of_line hc hmark).1, hline, hcomments, hafter,
        read_dropNewline_append, ih (terminated.suffix (hs.trans hsuf)) hrest]
      simp only [append, List.append_assoc]

/-! ## Ended lines, line by line -/

/-- Whether a line that goes on with these characters ends among them, and so does all behind it. -/
def closes (escape : Char) (stop : Nat) (more chars : List Placed) : Bool :=
  !(readUntil isLineBreak escape stop chars).rest.isEmpty &&
    (afterContinuation? escape ((readUntil isLineBreak escape stop chars).rest ++ more)).isNone &&
    endsLines escape stop more (dropNewline (readUntil isLineBreak escape stop chars).rest)

section Equations

variable {chars rest : List Placed} {p : Placed}

theorem endsLines_of_nil (h : (chars.dropWhile fun q => endsWord q.char) = []) :
    endsLines escape stop more chars = true := by
  rw [endsLines]
  split
  · rfl
  · rename_i h'
    rw [h] at h'
    cases h'

theorem endsLines_of_comment (h : (chars.dropWhile fun q => endsWord q.char) = p :: rest)
    (hp : p.char = '#') :
    endsLines escape stop more chars = (rest.any (fun q => isLineBreak q.char) &&
      endsLines escape stop more (Comment.read stop p.offset rest).2) := by
  rw [endsLines]
  split
  · rename_i h'
    rw [h] at h'
    cases h'
  · rename_i h'
    rw [h] at h'
    cases h'
    rw [if_pos hp]

theorem endsLines_of_line (h : (chars.dropWhile fun q => endsWord q.char) = p :: rest)
    (hp : p.char ≠ '#') :
    endsLines escape stop more chars = closes escape stop more (p :: rest) := by
  rw [endsLines]
  split
  · rename_i h'
    rw [h] at h'
    cases h'
  · rename_i h'
    rw [h] at h'
    cases h'
    rw [if_neg hp, closes, afterLine_eq]

end Equations

theorem endsLines_words_append {front : List Placed} (h : ∀ p ∈ front, endsWord p.char = true)
    (chars : List Placed) :
    endsLines escape stop more (front ++ chars) = endsLines escape stop more chars := by
  have hdrop : (front ++ chars).dropWhile (fun p => endsWord p.char) =
      chars.dropWhile fun p => endsWord p.char := List.dropWhile_append_of_pos h
  cases hchars : chars.dropWhile fun p => endsWord p.char with
  | nil =>
      rw [hchars] at hdrop
      rw [endsLines_of_nil hdrop, endsLines_of_nil hchars]
  | cons p rest =>
      rw [hchars] at hdrop
      by_cases hmark : p.char = '#'
      · rw [endsLines_of_comment hdrop hmark, endsLines_of_comment hchars hmark]
      · rw [endsLines_of_line hdrop hmark, endsLines_of_line hchars hmark]

/-- Where these characters are read, lines end as these lines do, whether one is open in front of
them or not. -/
structure EndsAs (escape : Char) (stop : Nat) (more chars : List Placed) (lines : List Line) :
    Prop where
  outside : endsLines escape stop more chars = true ↔ standing escape none lines = none
  inside : ∀ kept, closes escape stop more (skipLines stop chars).rest = true ↔
    standing escape (some kept) lines = none

theorem EndsAs.nil : EndsAs escape stop more [] [] where
  outside := by
    rw [endsLines_of_nil rfl]
    simp [standing]
  inside := by
    intro kept
    rw [skipLines_nil, closes, readUntil]
    simp [standing]

section Line

variable {line : Line} {lines : List Line} {rest : Text}

theorem closes_place (he : isLineBreak escape = false) {content terminator : Text}
    (clean : ∀ c ∈ content, isLineBreak c = false) (ends : IsTerminator terminator rest)
    (offset : Nat) :
    closes escape stop more (Text.place offset (content ++ (terminator ++ rest))) =
      if (Text.beforeEscape? escape content).isSome then
        closes escape stop more (skipLines stop
          (Text.place (offset + Text.byteLength (content ++ terminator)) rest)).rest
      else
        endsLines escape stop more
          (Text.place (offset + Text.byteLength (content ++ terminator)) rest) := by
  have hafter := afterNewline?_place ends (offset + Text.byteLength content)
  rw [Nat.add_assoc, ← Text.byteLength_append] at hafter
  unfold closes
  cases hfront : Text.beforeEscape? escape content with
  | none =>
      rw [readUntil_plain he clean (ends.isLineBreak_head rest) fun _ => hfront, dropNewline,
        hafter]
      obtain ⟨c, tail, htail⟩ := List.exists_cons_of_ne_nil ends.ne_nil
      have hc : c ≠ escape := by
        rintro rfl
        have hbreak : isLineBreak c = true := ends.isLineBreak_of_mem (by simp [htail])
        rw [he] at hbreak
        cases hbreak
      simp [htail, Text.place_cons, afterContinuation?, hc]
  | some front =>
      rw [readUntil_open clean (ends.isLineBreak_head rest) hfront hafter]
      rfl

/-- What stands in front of a text does not begin a continuation, unless the text is blank. -/
theorem beforeEscape?_append {front text : Text}
    (h : text.all isBlank = true → Text.beforeEscape? escape front = none) :
    Text.beforeEscape? escape (front ++ text) =
      (Text.beforeEscape? escape text).map (front ++ ·) := by
  induction front with
  | nil => simp
  | cons c front ih =>
      have hfront (hblank : text.all isBlank = true) :
          ¬ (c = escape ∧ front.all isBlank = true) ∧ Text.beforeEscape? escape front = none := by
        have hnone := h hblank
        rw [Text.beforeEscape?] at hnone
        split at hnone
        · cases hnone
        · rename_i hc
          exact ⟨hc, Option.map_eq_none_iff.mp hnone⟩
      have hall : ¬ (c = escape ∧ (front ++ text).all isBlank = true) := by
        rintro ⟨hc, hall⟩
        rw [List.all_append, Bool.and_eq_true] at hall
        exact (hfront hall.2).1 ⟨hc, hall.1⟩
      rw [List.cons_append, Text.beforeEscape?, if_neg hall, ih fun hblank => (hfront hblank).2,
        Option.map_map]
      rfl

theorem isSome_beforeEscape?_content (hcore : line.core ≠ []) (hterm : line.terminator ≠ []) :
    (Text.beforeEscape? escape line.content).isSome = line.goesOn escape := by
  obtain ⟨c, core, hc⟩ := List.exists_cons_of_ne_nil hcore
  have hblank := line.isBlank_core_head c (by rw [hc]; rfl)
  rw [← line.indent_append_core, beforeEscape?_append (by simp [hc, hblank]), Option.isSome_map,
    Line.goesOn, Line.beforeContinuation?, if_neg (by simpa using hterm)]

theorem EndsAs.outside_cons (he : isLineBreak escape = false)
    (clean : ∀ c ∈ line.content, isLineBreak c = false) (ends : IsTerminator line.terminator rest)
    (next : EndsAs escape stop more
      (Text.place (line.start + Text.byteLength (line.content ++ line.terminator)) rest) lines) :
    endsLines escape stop more
        (Text.place line.start (line.content ++ (line.terminator ++ rest))) = true ↔
      standing escape none (line :: lines) = none := by
  have hmore := ends.isLineBreak_head rest
  obtain ⟨hsplit, hindent, hhead⟩ := place_line line hmore
  have hlen : line.start + Text.byteLength line.indent +
      Text.byteLength (line.core ++ line.terminator) =
        line.start + Text.byteLength (line.content ++ line.terminator) := by
    have := line.start_add_indent_add_core
    simp only [Text.byteLength_append]
    omega
  rw [hsplit, endsLines_words_append fun p hp => by simp [endsWord, hindent p hp]]
  show _ ↔ standing escape (openAfter escape none line) lines = none
  cases hcore : line.core with
  | nil =>
      have hpassed : openAfter escape none line = none := by
        simp [openAfter, extended?, Line.isContent, hcore]
      have hbreaks : ∀ p ∈ Text.place (line.start + Text.byteLength line.indent) line.terminator,
          endsWord p.char = true := fun p hp =>
        endsWord_of_isLineBreak (ends.isLineBreak_of_mem (Text.char_mem_of_mem_place hp))
      rw [hcore, List.nil_append] at hlen
      rw [List.nil_append, Text.place_append, endsLines_words_append hbreaks, hlen, hpassed]
      exact next.outside
  | cons c core =>
      have hclean : ∀ d ∈ c :: core, isLineBreak d = false := by
        rw [← hcore]
        exact fun d hd => clean d ((List.dropWhile_sublist _).mem hd)
      have hword : endsWord c = false := by
        simp [endsWord, hclean c List.mem_cons_self, hhead c (by rw [hcore]; rfl)]
      have hdrop : (Text.place (line.start + Text.byteLength line.indent)
          (c :: core ++ (line.terminator ++ rest))).dropWhile (fun p => endsWord p.char) =
            ⟨c, line.start + Text.byteLength line.indent⟩ ::
              Text.place (line.start + Text.byteLength line.indent + c.utf8Size)
                (core ++ (line.terminator ++ rest)) :=
        dropWhile_place_more _ (by simp [hword])
      rw [hcore] at hlen
      by_cases hmark : c = '#'
      · have hpassed : openAfter escape none line = none := by
          simp [openAfter, extended?, Line.isContent, Line.isComment, hcore, hmark]
        have hbreak : (Text.place (line.start + Text.byteLength line.indent + c.utf8Size)
            (core ++ (line.terminator ++ rest))).any (fun p => isLineBreak p.char) = true := by
          obtain ⟨d, terminator, hd⟩ := List.exists_cons_of_ne_nil ends.ne_nil
          have hd' : isLineBreak d = true := ends.isLineBreak_of_mem (by simp [hd])
          rw [hd, Text.place_append, List.any_append, List.cons_append, Text.place_cons,
            List.any_cons]
          simp [hd']
        have hread : (Comment.read stop (line.start + Text.byteLength line.indent)
            (Text.place (line.start + Text.byteLength line.indent + c.utf8Size)
              (core ++ (line.terminator ++ rest)))).2 =
            Text.place (line.start + Text.byteLength (line.content ++ line.terminator)) rest := by
          have hcomment : ∀ d ∈ core, isLineBreak d = false :=
            fun d hd => hclean d (List.mem_cons_of_mem _ hd)
          rw [Comment.read_place hcomment hmore, dropNewline, afterNewline?_place ends,
            Option.getD_some, ← hlen]
          simp only [List.cons_append, Text.byteLength_cons, Text.byteLength_append, Nat.add_assoc]
        rw [endsLines_of_comment hdrop hmark, hpassed, hbreak, Bool.true_and, hread]
        exact next.outside
      · have hopen : openAfter escape none line = if line.goesOn escape then some (Text.place
            (line.start + Text.byteLength line.indent) (line.kept escape)) else none := by
          simp [openAfter, extended?, Line.isContent, Line.isComment, hcore, hmark]
        have hgoes : (Text.beforeEscape? escape (c :: core)).isSome = line.goesOn escape := by
          rw [Line.goesOn, Line.beforeContinuation?, if_neg (by simpa using ends.ne_nil), hcore]
        have hclose := @closes_place escape stop more rest he (c :: core) line.terminator hclean
          ends (line.start + Text.byteLength line.indent)
        rw [hlen, hgoes, List.cons_append, Text.place_cons] at hclose
        rw [endsLines_of_line hdrop hmark, hclose, hopen]
        split
        · exact next.inside _
        · exact next.outside

theorem EndsAs.inside_cons (he : isLineBreak escape = false)
    (clean : ∀ c ∈ line.content, isLineBreak c = false) (ends : IsTerminator line.terminator rest)
    (next : EndsAs escape stop more
      (Text.place (line.start + Text.byteLength (line.content ++ line.terminator)) rest) lines)
    (kept : List Placed) :
    closes escape stop more (skipLines stop
        (Text.place line.start (line.content ++ (line.terminator ++ rest)))).rest = true ↔
      standing escape (some kept) (line :: lines) = none := by
  have hmore := ends.isLineBreak_head rest
  have hterm : line.terminator = [] ↔ line.terminator ++ rest = [] := by simp [ends.ne_nil]
  have hafter : dropNewline (Text.place (line.start + Text.byteLength line.content)
      (line.terminator ++ rest)) =
        Text.place (line.start + Text.byteLength (line.content ++ line.terminator)) rest := by
    rw [dropNewline, afterNewline?_place ends, Text.byteLength_append, Nat.add_assoc]
    rfl
  show _ ↔ standing escape (openAfter escape (some kept) line) lines = none
  cases hskip : line.isSkipped with
  | true =>
      rw [skipLines_of_skipped clean hmore hterm hafter hskip, openAfter_of_skipped hskip]
      exact next.inside kept
  | false =>
      have hcore : line.core ≠ [] := by
        intro hnil
        simp [Line.isSkipped, hnil, ends.ne_nil] at hskip
      rw [skipLines_of_kept clean hmore hterm hskip, closes_place he clean ends,
        isSome_beforeEscape?_content hcore ends.ne_nil, openAfter_of_kept hskip]
      split
      · exact next.inside _
      · exact next.outside

end Line

theorem endsAs_place (he : isLineBreak escape = false) (stop : Nat) (more : List Placed)
    {start : Nat} {text : Text}
    {lines : List Line} (h : Lined start text lines)
    (hlast : ∀ c ∈ text.getLast?, isLineBreak c = true) :
    EndsAs escape stop more (Text.place start text) lines.dropLast := by
  induction h with
  | @last start content clean =>
      rcases List.eq_nil_or_concat content with rfl | ⟨front, c, rfl⟩
      · exact .nil
      · have hbreak := hlast c (by simp)
        rw [clean c (by simp)] at hbreak
        cases hbreak
  | @cons start content terminator rest lines clean ends next ih =>
      have hnext := ih fun c hc => hlast c (by simp [List.getLast?_append, Option.mem_def.mp hc])
      rw [List.dropLast_cons_of_ne_nil next.ne_nil]
      let line : Line := ⟨start, content, terminator⟩
      exact ⟨@EndsAs.outside_cons escape stop more line _ rest he clean ends hnext,
        @EndsAs.inside_cons escape stop more line _ rest he clean ends hnext⟩

/-- A text that ends with a line break ends its lines if they leave nothing open. -/
theorem endsLines_iff (he : isLineBreak escape = false) (stop : Nat) (more : List Placed)
    {text : Text}
    (hlast : ∀ c ∈ text.getLast?, isLineBreak c = true) :
    endsLines escape stop more (Text.place 0 text) = true ↔
      standing escape none (Text.lines text).dropLast = none :=
  (endsAs_place he stop more (lined_lines text) hlast).outside

/-! ## Two texts -/

/-- The comments and instructions of a text in which there are no directives. -/
def ofText (escape : Char) (text : Text) : Body :=
  read escape (Text.byteLength text) (Text.place 0 text)

/-- A text ends a line in front of another: it is empty, or it ends with a line break that belongs
to no continuation and to no line passed over behind one. An instruction that took such a break would
reach the end of the text, or go on into the other one. -/
structure EndsLine (escape : Char) (a b : Text) : Prop where
  terminator : ∀ c ∈ a.getLast?, isLineBreak c = true
  ended : endsLines escape (Text.byteLength a) (Text.place (Text.byteLength a) b)
    (Text.place 0 a) = true

theorem EndsLine.terminated {a b : Text} (h : EndsLine escape a b) :
    Terminated (Text.place 0 a) := by
  intro p hp
  have hchar := h.terminator p.char
  rw [← Text.text_place 0 a, Placed.text, List.getLast?_map, Option.mem_def.mp hp] at hchar
  exact hchar rfl

/-- Where a text ends a line, what is read of it and of a text behind it is what is read of each
alone, the second moved behind the first: its comments and instructions, and the spans and arguments
of these. -/
theorem ofText_append {a b : Text} (h : EndsLine escape a b) :
    ofText escape (a ++ b) =
        append (ofText escape a) ((ofText escape b).shift (Text.byteLength a)) ∧
      ∀ inst ∈ (ofText escape b).instructions,
        (inst.shift (Text.byteLength a)).kind = inst.kind ∧
          (inst.shift (Text.byteLength a)).keywordSpan =
            inst.keywordSpan.shift (Text.byteLength a) ∧
          (inst.shift (Text.byteLength a)).span = inst.span.shift (Text.byteLength a) ∧
          (inst.shift (Text.byteLength a)).arguments =
            inst.arguments.map (Argument.shift (Text.byteLength a)) := by
  constructor
  · have hplace : Text.place (Text.byteLength a) b =
        (Text.place 0 b).map (Placed.shift (Text.byteLength a)) := by
      rw [← place_shift, Nat.zero_add]
    have hread := read_append_of_endsLines (Text.byteLength (a ++ b)) h.terminated h.ended
    unfold ofText
    rw [Text.place_append, Nat.zero_add, hread, hplace, Text.byteLength_append, Nat.add_comm,
      read_shift]
  · intro inst _
    exact ⟨inst.kind_shift _, inst.keywordSpan_shift _, inst.span_shift _, inst.arguments_shift _⟩

/-- A carriage return ends the first text and a line feed begins the second; in front of them an
instruction goes on behind a blank line and a comment. -/
theorem ofText_append_pair :
    EndsLine '\\' "# a\nRUN b \\\n\n # c\n d\r".toList "\nCMD e".toList ∧
      ofText '\\' "# a\nRUN b \\\n\n # c\n d\r\nCMD e".toList =
        append (ofText '\\' "# a\nRUN b \\\n\n # c\n d\r".toList)
          ((ofText '\\' "\nCMD e".toList).shift 21) := by
  have h : EndsLine '\\' "# a\nRUN b \\\n\n # c\n d\r".toList "\nCMD e".toList := by
    have hlast : ∀ c ∈ "# a\nRUN b \\\n\n # c\n d\r".toList.getLast?, isLineBreak c = true := by
      simp [isLineBreak]
    refine ⟨hlast, ?_⟩
    rw [endsLines_iff (by decide) _ _ hlast]
    decide +kernel
  exact ⟨h, (ofText_append h).1⟩

end Body

end Dockerfile
