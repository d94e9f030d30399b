import Dockerfile.Proofs.Argument
import Dockerfile.Proofs.Body.Run

/-!
# Reading further on

What is read does not depend on where it stands. If all characters are moved by a number of bytes,
every reader gives the same, moved by as many bytes (`Body.read_shift`), and so does all that is
computed from an instruction.
-/

namespace Dockerfile

/-! ## Moving offsets -/

def Span.shift (n : Nat) (span : Span) : Span :=
  ⟨span.start + n, span.stop + n⟩

def Placed.shift (n : Nat) (p : Placed) : Placed :=
  { p with offset := p.offset + n }

def Excerpt.shift (n : Nat) (e : Excerpt) : Excerpt :=
  ⟨e.chars.map (Placed.shift n), e.anchor + n⟩

def Comment.shift (n : Nat) (c : Comment) : Comment :=
  { c with span := c.span.shift n, contentSpan := c.contentSpan.shift n }

def OpenQuote.shift (n : Nat) (q : OpenQuote) : OpenQuote :=
  { q with offset := q.offset + n }

def Argument.shift (n : Nat) (arg : Argument) : Argument :=
  { arg with
    content := arg.content.shift n
    openQuote := arg.openQuote.map (OpenQuote.shift n) }

def Instruction.shift (n : Nat) (inst : Instruction) : Instruction :=
  { inst with
    keyword := inst.keyword.shift n
    region := inst.region.shift n
    emptyLines := inst.emptyLines.map (Span.shift n) }

def Body.shift (n : Nat) (body : Body) : Body :=
  ⟨body.comments.map (Comment.shift n), body.instructions.map (Instruction.shift n)⟩

def Body.Skipped.shift (n : Nat) (s : Skipped) : Skipped :=
  ⟨s.emptyLines.map (Span.shift n), s.comments.map (Comment.shift n), s.rest.map (Placed.shift n)⟩

def Body.Run.shift (n : Nat) (r : Run) : Run :=
  ⟨r.chars.map (Placed.shift n), r.emptyLines.map (Span.shift n), r.comments.map (Comment.shift n),
    r.rest.map (Placed.shift n)⟩

/-! ## Characters and excerpts -/

section Excerpts

variable (n : Nat)

theorem place_shift (offset : Nat) (text : Text) :
    Text.place (offset + n) text = (Text.place offset text).map (Placed.shift n) := by
  induction text generalizing offset with
  | nil => rfl
  | cons c text ih =>
      rw [Text.place_cons, Text.place_cons, List.map_cons, ← ih, Nat.add_right_comm]
      rfl

@[simp] theorem Placed.char_shift (p : Placed) : (p.shift n).char = p.char := rfl

@[simp] theorem OpenQuote.quote_shift (q : OpenQuote) : (q.shift n).quote = q.quote := rfl

@[simp] theorem Placed.offset_shift (p : Placed) : (p.shift n).offset = p.offset + n := rfl

theorem Placed.text_shift (chars : List Placed) :
    Placed.text (chars.map (Placed.shift n)) = Placed.text chars := by
  rw [Placed.text, List.map_map]
  rfl

theorem Placed.total_size_shift (chars : List Placed) :
    total Placed.size (chars.map (Placed.shift n)) = total Placed.size chars := by
  rw [Placed.total_size, Placed.total_size, Placed.text_shift]

theorem Placed.startOr_shift (stop : Nat) (chars : List Placed) :
    Placed.startOr (stop + n) (chars.map (Placed.shift n)) = Placed.startOr stop chars + n := by
  cases chars <;> rfl

theorem Placed.stop_shift (p : Placed) : (p.shift n).stop = p.stop + n :=
  Nat.add_right_comm _ _ _

theorem Placed.stopOr_shift (anchor : Nat) (chars : List Placed) :
    Placed.stopOr (anchor + n) (chars.map (Placed.shift n)) = Placed.stopOr anchor chars + n := by
  unfold Placed.stopOr
  rw [List.getLast?_map]
  cases chars.getLast? with
  | none => rfl
  | some p => exact p.stop_shift n

theorem takeWhile_shift (f : Char → Bool) (chars : List Placed) :
    (chars.map (Placed.shift n)).takeWhile (fun p => f p.char) =
      (chars.takeWhile fun p => f p.char).map (Placed.shift n) :=
  List.takeWhile_map

theorem dropWhile_shift (f : Char → Bool) (chars : List Placed) :
    (chars.map (Placed.shift n)).dropWhile (fun p => f p.char) =
      (chars.dropWhile fun p => f p.char).map (Placed.shift n) :=
  List.dropWhile_map

theorem Excerpt.start_shift (e : Excerpt) : (e.shift n).start = e.start + n :=
  Placed.startOr_shift n _ _

theorem Excerpt.stop_shift (e : Excerpt) : (e.shift n).stop = e.stop + n :=
  Placed.stopOr_shift n _ _

theorem Excerpt.text_shift (e : Excerpt) : (e.shift n).text = e.text :=
  Placed.text_shift n _

theorem Excerpt.span_shift (e : Excerpt) : (e.shift n).span = e.span.shift n := by
  simp only [Excerpt.span, Span.shift, start_shift, stop_shift, Nat.add_max_add_right]

/-- The excerpt has the characters of another, `n` bytes further on. Without characters, the two may
be anchored at any places. -/
structure Excerpt.Moved (n : Nat) (e e' : Excerpt) : Prop where
  chars : e'.chars = e.chars.map (Placed.shift n)
  stop : e'.stop = e.stop + n

theorem Excerpt.moved_shift (e : Excerpt) : e.Moved n (e.shift n) :=
  ⟨rfl, e.stop_shift n⟩

theorem Excerpt.Moved.part {n : Nat} {e e' : Excerpt} (h : e.Moved n e') (kept rest : List Placed) :
    e'.part (kept.map (Placed.shift n)) (rest.map (Placed.shift n)) = (e.part kept rest).shift n := by
  simp only [Excerpt.part, Excerpt.shift, h.stop, Placed.startOr_shift]

theorem Excerpt.offsetIn_shift (stop : Nat) (chars : List Placed) (index : Nat) :
    offsetIn (stop + n) (chars.map (Placed.shift n)) index = offsetIn stop chars index + n := by
  induction chars generalizing index with
  | nil => rfl
  | cons p chars ih =>
      rw [List.map_cons, offsetIn, offsetIn, ih]
      show (if index < p.size then p.offset + n + index
        else offsetIn stop chars (index - p.size) + n) = _
      split <;> omega

theorem Excerpt.spanAt_shift (e : Excerpt) (start stop : Nat) :
    (e.shift n).spanAt start stop = (e.spanAt start stop).shift n := by
  have hraw : ∀ index, (e.shift n).rawOffset index = e.rawOffset index + n := by
    intro index
    rw [rawOffset, stop_shift]
    exact offsetIn_shift n _ _ _
  have hlength : (e.shift n).byteLength = e.byteLength := Placed.total_size_shift n _
  unfold spanAt
  rw [hraw, hraw, hlength, stop_shift]
  split
  · rfl
  · simp only [Span.shift, Span.mk.injEq, true_and]
    split <;> omega

theorem Excerpt.trimmedBounds_shift (e : Excerpt) :
    (e.shift n).trimmedBounds = e.trimmedBounds := by
  unfold trimmedBounds leadingBlanks
  rw [text_shift]
  simp only [shift, takeWhile_shift, Placed.total_size_shift]

end Excerpts

/-! ## Readers -/

section Readers

variable (n : Nat)

theorem afterNewline?_shift (chars : List Placed) :
    afterNewline? (chars.map (Placed.shift n)) =
      (afterNewline? chars).map (List.map (Placed.shift n)) := by
  cases chars with
  | nil => rfl
  | cons p rest =>
      have hhead : (rest.map (Placed.shift n)).head?.map Placed.char =
          rest.head?.map Placed.char := by
        cases rest <;> rfl
      rw [List.map_cons, afterNewline?_cons, afterNewline?_cons, hhead, ← List.map_tail]
      by_cases hbreak : isLineBreak p.char = true
      · rw [if_pos hbreak, if_pos (show isLineBreak (p.shift n).char = true from hbreak),
          Option.map_some, apply_ite (List.map (Placed.shift n))]
        rfl
      · rw [if_neg hbreak, if_neg (show ¬ isLineBreak (p.shift n).char = true from hbreak)]
        rfl

theorem dropNewline_shift (chars : List Placed) :
    dropNewline (chars.map (Placed.shift n)) = (dropNewline chars).map (Placed.shift n) := by
  unfold dropNewline
  rw [afterNewline?_shift]
  cases afterNewline? chars <;> rfl

theorem afterContinuation?_shift (escape : Char) (chars : List Placed) :
    afterContinuation? escape (chars.map (Placed.shift n)) =
      (afterContinuation? escape chars).map (List.map (Placed.shift n)) := by
  cases chars with
  | nil => rfl
  | cons p rest =>
      rw [List.map_cons]
      simp only [afterContinuation?, dropWhile_shift, afterNewline?_shift]
      show (if p.char = escape then _ else _) = _
      split <;> rfl

theorem Comment.ofBody_shift (start stop : Nat) (body : Text) :
    ofBody (start + n) (stop + n) body = (ofBody start stop body).shift n := by
  simp only [ofBody, shift, Span.shift, Nat.add_right_comm _ n]

theorem Comment.read_shift (stop start : Nat) (chars : List Placed) :
    read (stop + n) (start + n) (chars.map (Placed.shift n)) =
      ((read stop start chars).1.shift n, (read stop start chars).2.map (Placed.shift n)) := by
  simp only [read, takeWhile_shift n fun c => !isLineBreak c,
    dropWhile_shift n fun c => !isLineBreak c, Placed.startOr_shift, Placed.text_shift,
    dropNewline_shift, ofBody_shift]

namespace Body

theorem skipLines_shift (stop : Nat) (chars : List Placed) :
    skipLines (stop + n) (chars.map (Placed.shift n)) = (skipLines stop chars).shift n := by
  have hdrop := dropWhile_shift n isBlank chars
  fun_induction skipLines stop chars with
  | case1 chars hc =>
      rw [hc] at hdrop
      exact skipLines_of_nil hdrop
  | case2 chars p rest hc hp next ih =>
      rw [hc] at hdrop
      rw [skipLines_of_break hdrop hp, ← List.map_cons, dropNewline_shift,
        ih (dropWhile_shift n isBlank _), Placed.startOr_shift]
      rfl
  | case3 chars p rest hc hb hp comment next ih =>
      rw [hc] at hdrop
      rw [skipLines_of_comment hdrop hp, Placed.offset_shift, Comment.read_shift,
        ih (dropWhile_shift n isBlank _)]
      rfl
  | case4 chars p rest hc hb hp =>
      rw [hc] at hdrop
      have hbreak : isLineBreak (p.shift n).char = false := by simpa using hb
      exact skipLines_of_content hdrop hbreak hp

theorem Run.chars_shift (r : Run) : (r.shift n).chars = r.chars.map (Placed.shift n) := rfl

theorem Run.emptyLines_shift (r : Run) :
    (r.shift n).emptyLines = r.emptyLines.map (Span.shift n) := rfl

theorem Run.comments_shift (r : Run) :
    (r.shift n).comments = r.comments.map (Comment.shift n) := rfl

theorem Run.rest_shift (r : Run) : (r.shift n).rest = r.rest.map (Placed.shift n) := rfl

theorem readUntil_shift (ends : Char → Bool) (escape : Char) (stop : Nat) (chars : List Placed) :
    readUntil ends escape (stop + n) (chars.map (Placed.shift n)) =
      (readUntil ends escape stop chars).shift n := by
  fun_induction readUntil ends escape stop chars with
  | case1 =>
      rw [List.map_nil, readUntil]
      rfl
  | case2 p rest after hc skipped next ih =>
      have hshift := afterContinuation?_shift n escape (p :: rest)
      rw [hc] at hshift
      have hnext : readUntil ends escape (stop + n) (skipped.shift n).rest = next.shift n := ih
      rw [List.map_cons, readUntil_of_continuation hshift, skipLines_shift, hnext]
      simp only [Run.shift, Skipped.shift, List.map_append]
      rfl
  | case3 p rest hc hp =>
      have hshift := afterContinuation?_shift n escape (p :: rest)
      rw [hc] at hshift
      exact readUntil_of_end hshift hp
  | case4 p rest hc hp next ih =>
      have hshift := afterContinuation?_shift n escape (p :: rest)
      rw [hc] at hshift
      rw [List.map_cons, readUntil_of_char hshift (by simpa using hp), ih]
      rfl

theorem afterKeyword_shift (escape : Char) (stop : Nat) (chars : List Placed) :
    afterKeyword escape (stop + n) (chars.map (Placed.shift n)) =
      (afterKeyword escape stop chars).map (Placed.shift n) := by
  rw [afterKeyword, readUntil_shift, Run.rest_shift, afterKeyword]

theorem afterLine_shift (escape : Char) (stop : Nat) (chars : List Placed) :
    afterLine escape (stop + n) (chars.map (Placed.shift n)) =
      (afterLine escape stop chars).map (Placed.shift n) := by
  rw [afterLine, afterKeyword_shift, readUntil_shift, Run.rest_shift, afterLine]

theorem commentsIn_shift (escape : Char) (stop : Nat) (chars : List Placed) :
    commentsIn escape (stop + n) (chars.map (Placed.shift n)) =
      (commentsIn escape stop chars).map (Comment.shift n) := by
  rw [commentsIn, afterKeyword_shift, readUntil_shift, readUntil_shift, Run.comments_shift,
    Run.comments_shift, ← List.map_append, commentsIn]

end Body

theorem Instruction.ofParts_shift (keyword region : Excerpt) (emptyLines : List Span)
    (escape : Char) :
    ofParts (keyword.shift n) (region.shift n) (emptyLines.map (Span.shift n)) escape =
      (ofParts keyword region emptyLines escape).shift n := by
  have hanchor : max (region.anchor + n) ((keyword.shift n).span.stop) =
      max region.anchor keyword.span.stop + n := by
    rw [Excerpt.span_shift]
    exact Nat.add_max_add_right _ _ _
  simp only [ofParts, shift, Excerpt.shift, ← hanchor]

namespace Body

theorem lineAt_shift (escape : Char) (stop : Nat) (chars : List Placed) :
    lineAt escape (stop + n) (chars.map (Placed.shift n)) = (lineAt escape stop chars).shift n := by
  simp only [lineAt, readUntil_shift, Run.chars_shift, Run.emptyLines_shift, Run.rest_shift,
    Placed.startOr_shift, ← List.map_append, ← Instruction.ofParts_shift]
  simp only [Excerpt.shift, ← Placed.startOr_shift, ← Excerpt.stop_shift]

theorem read_shift (escape : Char) (stop : Nat) (chars : List Placed) :
    read escape (stop + n) (chars.map (Placed.shift n)) = (read escape stop chars).shift n := by
  have hdrop := dropWhile_shift n endsWord chars
  fun_induction logicalLines escape stop chars with
  | case1 chars hc =>
      rw [hc] at hdrop
      rw [(read_of_nil hdrop).1, (read_of_nil hc).1]
      rfl
  | case2 chars p rest hc hmark ih =>
      rw [hc] at hdrop
      rw [(read_of_comment hdrop hmark).1, (read_of_comment hc hmark).1, Placed.offset_shift,
        Comment.read_shift, ih (dropWhile_shift n endsWord _)]
      rfl
  | case3 chars p rest hc hmark ih =>
      rw [hc] at hdrop
      rw [(read_of_line hdrop hmark).1, (read_of_line hc hmark).1, ← List.map_cons, lineAt_shift,
        commentsIn_shift, afterLine_shift, dropNewline_shift, ih (dropWhile_shift n endsWord _)]
      have hnamed : ([(lineAt escape stop (p :: rest)).shift n].filter Instruction.isNamed) =
          ([lineAt escape stop (p :: rest)].filter Instruction.isNamed).map
            (Instruction.shift n) := by
        rw [← List.map_singleton, List.filter_map]
        congr 2
        funext inst
        exact congrArg not List.isEmpty_map
      simp only [shift, List.map_append, hnamed]

end Body

end Readers

/-! ## Arguments -/

section Arguments

variable (n : Nat)

def Argument.Word.shift (n : Nat) (word : Word) : Word :=
  ⟨word.chars.map (Placed.shift n), word.rest.map (Placed.shift n),
    word.openQuote.map (OpenQuote.shift n)⟩

theorem Argument.Word.prepend_shift (chars : List Placed) (word : Word) :
    (word.shift n).prepend (chars.map (Placed.shift n)) = (word.prepend chars).shift n := by
  simp only [prepend, shift, List.map_append]

theorem Argument.Word.read_shift (escape : Char) (quote : Option OpenQuote) (chars : List Placed) :
    read escape (quote.map (OpenQuote.shift n)) (chars.map (Placed.shift n)) =
      (read escape quote chars).shift n := by
  fun_induction read escape quote chars with
  | case1 quote => simp [read, shift]
  | case2 p rest hb =>
      simp [read.eq_def escape none (p.shift n :: rest.map (Placed.shift n)), shift, hb]
  | case3 p rest hb hq ih =>
      rw [← prepend_shift, ← ih]
      simp [read.eq_def escape none (p.shift n :: rest.map (Placed.shift n)), hb, hq]
      rfl
  | case4 p hb hq he =>
      subst he
      simp [read.eq_def p.char none [p.shift n], shift, hb, hq]
  | case5 p hb hq he q rest ih =>
      subst he
      rw [← prepend_shift, ← ih]
      simp [read.eq_def p.char none (p.shift n :: q.shift n :: rest.map (Placed.shift n)), hb, hq]
  | case6 p rest hb hq he ih =>
      rw [← prepend_shift, ← ih]
      simp [read.eq_def escape none (p.shift n :: rest.map (Placed.shift n)), hb, hq, he]
  | case7 p rest opened hclose ih =>
      rw [← prepend_shift, ← ih]
      simp [read.eq_def escape (some (opened.shift n)) (p.shift n :: rest.map (Placed.shift n)),
        hclose]
  | case8 p opened hclose he =>
      obtain ⟨hq, rfl⟩ := he
      rw [hq] at hclose
      simp [read.eq_def p.char (some (opened.shift n)) [p.shift n], hclose, hq, shift]
  | case9 p opened hclose he q rest ih =>
      obtain ⟨hq, rfl⟩ := he
      rw [hq] at hclose
      rw [← prepend_shift, ← ih]
      simp [read.eq_def p.char (some (opened.shift n))
        (p.shift n :: q.shift n :: rest.map (Placed.shift n)), hclose, hq]
  | case10 p rest opened hclose he ih =>
      rw [← prepend_shift, ← ih]
      simp [read.eq_def escape (some (opened.shift n)) (p.shift n :: rest.map (Placed.shift n)),
        hclose, he]

theorem Argument.splitFrom_moved {n : Nat} (escape : Char) {whole whole' : Excerpt}
    (h : whole.Moved n whole') (index : Nat) (chars : List Placed) :
    splitFrom escape whole' index (chars.map (Placed.shift n)) =
      (splitFrom escape whole index chars).map (shift n) := by
  fun_induction splitFrom escape whole index chars with
  | case1 => simp [splitFrom]
  | case2 index p rest hb ih =>
      rw [List.map_cons, splitFrom, if_pos (show isBlank (p.shift n).char = true from hb)]
      exact ih
  | case3 index p rest hb word stop ih =>
      have hword : Word.read escape none ((p :: rest).map (Placed.shift n)) = word.shift n :=
        Word.read_shift n escape none (p :: rest)
      have hstop : index + total Placed.size (word.chars.map (Placed.shift n)) = stop := by
        rw [Placed.total_size_shift]
      rw [List.map_cons] at hword ⊢
      rw [splitFrom, if_neg (show ¬ isBlank (p.shift n).char = true from hb), hword]
      simp only [Word.shift, hstop, ih, h.part, List.map_cons]
      rfl

end Arguments

namespace Instruction

variable (n : Nat) (inst : Instruction)

theorem kind_shift : (inst.shift n).kind = inst.kind :=
  congrArg Keyword.ofText? (Excerpt.text_shift n inst.keyword)

theorem keywordSpan_shift : (inst.shift n).keywordSpan = inst.keywordSpan.shift n :=
  Excerpt.span_shift n inst.keyword

theorem arguments_shift : (inst.shift n).arguments = inst.arguments.map (Argument.shift n) :=
  Argument.splitFrom_moved inst.escape (inst.region.moved_shift n) 0 inst.region.chars

theorem span_shift : (inst.shift n).span = inst.span.shift n := by
  have hregion : (inst.shift n).region = inst.region.shift n := rfl
  simp only [span, keywordSpan_shift, hregion, Excerpt.trimmedBounds_shift, Excerpt.spanAt_shift]
  simp only [Span.shift, ← apply_ite (· + n), Nat.add_max_add_right]

end Instruction

end Dockerfile
