import Mathlib.Data.List.Pairwise
import Dockerfile.Proofs.Checked.Body

/-!
# A body, one step at a time

`Body.read` calls itself with the characters that remain. A `Lexer` holds an offset of the text
instead, says what it is in the middle of, and goes on in single steps: past a blank, a line
terminator, a comment, a continuation or a character, or to another state at the same offset. `Turn`
says what a step does to the characters that remain. One turn never goes back, makes a measure of
the remaining characters and the state smaller, and leaves as it is what was read so far together
with what will be read (`Turn.remainder_eq`). So a run ends at the end of the text, has moved on
whenever it comes back to the start of a line, and has read what `Body.read` reads
(`Lexer.run_reads`).
-/

namespace Dockerfile

namespace Body

def prepend (comments : List Comment) (instructions : List Instruction) (body : Body) : Body :=
  ⟨comments ++ body.comments, instructions ++ body.instructions⟩

@[simp] theorem prepend_nil (body : Body) : body.prepend [] [] = body := rfl

theorem prepend_prepend (comments comments' : List Comment) (instructions instructions' : List Instruction)
    (body : Body) : (body.prepend comments instructions).prepend comments' instructions' =
      body.prepend (comments' ++ comments) (instructions' ++ instructions) := by
  simp only [prepend, List.append_assoc]

end Body

namespace Lexer

/-- The two parts of an instruction. -/
inductive Part where
  | keyword
  | region
  deriving DecidableEq, Repr

def Part.ends : Part → Char → Bool
  | keyword => Body.endsWord
  | region => isLineBreak

/-- An instruction that is being read. -/
structure Pending where
  keyword : Excerpt
  region : Excerpt
  emptyLines : List Span
  deriving DecidableEq, Repr

namespace Pending

/-- An instruction of which nothing is read yet. -/
def fresh (start : Nat) : Pending :=
  ⟨⟨[], start⟩, ⟨[], start⟩, []⟩

def push (inst : Pending) (chars : List Placed) : Part → Pending
  | .keyword => { inst with keyword := ⟨inst.keyword.chars ++ chars, inst.keyword.anchor⟩ }
  | .region => { inst with region := ⟨inst.region.chars ++ chars, inst.region.anchor⟩ }

def anchored (inst : Pending) (offset : Nat) : Pending :=
  { inst with region := ⟨inst.region.chars, offset⟩ }

def pass (inst : Pending) (lines : List Span) : Pending :=
  { inst with emptyLines := inst.emptyLines ++ lines }

def instructions (escape : Char) (inst : Pending) : List Instruction :=
  if inst.keyword.isEmpty then []
  else [Instruction.ofParts inst.keyword inst.region inst.emptyLines escape]

end Pending

inductive State where
  | lineStart
  | inComment
  | inPart (part : Part) (inst : Pending)
  /-- Behind a continuation, where blank lines and comments are passed. -/
  | behindContinuation (part : Part) (inst : Pending)
  /-- At the end of the text, perhaps with an instruction that ends in its keyword. -/
  | eof (pending : Option Pending)
  deriving DecidableEq, Repr

end Lexer

/-- An offset of the text, what is read there next, and what was read so far. -/
structure Lexer where
  pos : Nat
  state : Lexer.State
  comments : List Comment
  instructions : List Instruction
  deriving DecidableEq, Repr

namespace Lexer

def start (offset : Nat) : Lexer :=
  ⟨offset, .lineStart, [], []⟩

def rest (text : Text) (l : Lexer) : List Placed :=
  Text.place l.pos (Text.dropBytes l.pos text)

def passComment (text : Text) (l : Lexer) (mark : Placed) (rest : List Placed) : Lexer :=
  let read := Comment.read (Text.byteLength text) mark.offset rest
  { l with pos := Checked.offsetOf text read.2, comments := l.comments ++ [read.1] }

def endLine (text : Text) (escape : Char) (l : Lexer) (inst : Pending) : Lexer :=
  { l with
    pos := Checked.behindNewline text l.pos
    state := .lineStart
    instructions := l.instructions ++ inst.instructions escape }

/-- One step. There is none at the end of the text with nothing pending. -/
def step (text : Text) (escape : Char) (l : Lexer) : Option Lexer :=
  match l.state, l.rest text with
  | .lineStart, [] => some { l with state := .eof none }
  | .lineStart, p :: _ =>
      if isBlank p.char then some { l with pos := l.pos + 1 }
      else if isLineBreak p.char then
        some { l with pos := l.pos + (Text.newlineLength? text l.pos).getD 1 }
      else if p.char = '#' then some { l with state := .inComment }
      else some { l with state := .inPart .keyword (.fresh l.pos) }
  | .inComment, [] => some { l with state := .lineStart }
  | .inComment, mark :: rest => some { l.passComment text mark rest with state := .lineStart }
  | .inPart .keyword inst, [] => some { l with state := .eof (some inst) }
  | .inPart .region inst, [] => some (l.endLine text escape inst)
  | .inPart part inst, p :: _ =>
      match Text.continuationLength? text l.pos escape with
      | some length => some { l with pos := l.pos + length, state := .behindContinuation part inst }
      | none =>
          if part.ends p.char then
            match part with
            -- What ends the keyword belongs to the region.
            | .keyword => some { l with state := .inPart .region (inst.anchored l.pos) }
            | .region => some (l.endLine text escape inst)
          else some { l with pos := l.pos + p.size, state := .inPart part (inst.push [p] part) }
  | .behindContinuation part inst, chars =>
      match chars.dropWhile fun p => isBlank p.char with
      | [] => some { l with state := .inPart part inst }
      | p :: rest =>
          if isLineBreak p.char then
            some { l with
              pos := p.offset + (Text.newlineLength? text p.offset).getD 1
              state := .behindContinuation part (inst.pass [⟨l.pos, p.offset⟩]) }
          else if p.char = '#' then some (l.passComment text p rest)
          else some { l with state := .inPart part inst }
  | .eof (some inst), _ =>
      some { l with state := .eof none, instructions := l.instructions ++ inst.instructions escape }
  | .eof none, _ => none

/-! ## What a step does -/

/-- How a step goes on in the characters that remain, and what it has read. -/
inductive Turn (escape : Char) (stop : Nat) :
    State → List Placed → List Comment → List Instruction → State → List Placed → Prop
  | finish : Turn escape stop .lineStart [] [] [] (.eof none) []
  | blank {p : Placed} {rest : List Placed} (blank : isBlank p.char = true) :
      Turn escape stop .lineStart (p :: rest) [] [] .lineStart rest
  | terminator {p : Placed} {rest : List Placed} (ends : isLineBreak p.char = true) :
      Turn escape stop .lineStart (p :: rest) [] [] .lineStart (dropNewline (p :: rest))
  | mark {p : Placed} {rest : List Placed} (mark : p.char = '#') :
      Turn escape stop .lineStart (p :: rest) [] [] .inComment (p :: rest)
  | word {p : Placed} {rest : List Placed} (content : Body.endsWord p.char = false)
      (mark : p.char ≠ '#') :
      Turn escape stop .lineStart (p :: rest) [] [] (.inPart .keyword (.fresh p.offset)) (p :: rest)
  | noComment : Turn escape stop .inComment [] [] [] .lineStart []
  | comment {p : Placed} {rest : List Placed} :
      Turn escape stop .inComment (p :: rest) [(Comment.read stop p.offset rest).1] [] .lineStart
        (Comment.read stop p.offset rest).2
  | cutOff {inst : Pending} :
      Turn escape stop (.inPart .keyword inst) [] [] [] (.eof (some inst)) []
  | lastLine {inst : Pending} :
      Turn escape stop (.inPart .region inst) [] [] (inst.instructions escape) .lineStart []
  | continuation {part : Part} {inst : Pending} {p : Placed} {rest after : List Placed}
      (continues : afterContinuation? escape (p :: rest) = some after) :
      Turn escape stop (.inPart part inst) (p :: rest) [] [] (.behindContinuation part inst) after
  | char {part : Part} {inst : Pending} {p : Placed} {rest : List Placed}
      (plain : afterContinuation? escape (p :: rest) = none) (kept : part.ends p.char = false) :
      Turn escape stop (.inPart part inst) (p :: rest) [] [] (.inPart part (inst.push [p] part)) rest
  | behindKeyword {inst : Pending} {p : Placed} {rest : List Placed}
      (plain : afterContinuation? escape (p :: rest) = none) (ends : Body.endsWord p.char = true) :
      Turn escape stop (.inPart .keyword inst) (p :: rest) [] []
        (.inPart .region (inst.anchored p.offset)) (p :: rest)
  | line {inst : Pending} {p : Placed} {rest : List Placed}
      (plain : afterContinuation? escape (p :: rest) = none) (ends : isLineBreak p.char = true) :
      Turn escape stop (.inPart .region inst) (p :: rest) [] (inst.instructions escape) .lineStart
        (dropNewline (p :: rest))
  | emptyLine {part : Part} {inst : Pending} {chars rest : List Placed} {p : Placed}
      (first : (chars.dropWhile fun q => isBlank q.char) = p :: rest)
      (ends : isLineBreak p.char = true) :
      Turn escape stop (.behindContinuation part inst) chars [] []
        (.behindContinuation part (inst.pass [⟨Placed.startOr stop chars, p.offset⟩]))
        (dropNewline (p :: rest))
  | commentLine {part : Part} {inst : Pending} {chars rest : List Placed} {p : Placed}
      (first : (chars.dropWhile fun q => isBlank q.char) = p :: rest) (mark : p.char = '#') :
      Turn escape stop (.behindContinuation part inst) chars [(Comment.read stop p.offset rest).1] []
        (.behindContinuation part inst) (Comment.read stop p.offset rest).2
  | resume {part : Part} {inst : Pending} {chars : List Placed}
      (content : Body.skipLines stop chars = ⟨[], [], chars⟩) :
      Turn escape stop (.behindContinuation part inst) chars [] [] (.inPart part inst) chars
  | close {inst : Pending} {chars : List Placed} :
      Turn escape stop (.eof (some inst)) chars [] (inst.instructions escape) (.eof none) chars

structure At (text : Text) (l : Lexer) (chars : List Placed) : Prop where
  suffix : chars <:+ Text.place 0 text
  pos : l.pos = Checked.offsetOf text chars

section Offsets

variable {text : Text} {escape : Char} {l : Lexer} {chars rest : List Placed} {p : Placed}

theorem At.rest_eq (h : At text l chars) : l.rest text = chars := by
  have hchars := Checked.placedFrom?_chars h.suffix
  rw [Text.placedFrom?, if_pos (Text.isBoundary_startOr h.suffix), ← h.pos] at hchars
  exact Option.some.inj hchars

theorem At.boundary (h : At text l chars) : Text.isBoundary text l.pos = true := by
  rw [h.pos]
  exact Text.isBoundary_startOr h.suffix

theorem at_rest (h : Text.isBoundary text l.pos = true) : At text l (l.rest text) := by
  obtain ⟨a, b, rfl, hpos⟩ := Text.isBoundary_iff.mp h
  have hrest : l.rest (a ++ b) = Text.place (Text.byteLength a) b := by
    rw [rest, ← hpos, Text.dropBytes_append_byteLength]
  refine ⟨?_, ?_⟩
  · rw [hrest, Text.place_append, Nat.zero_add]
    exact List.suffix_append _ _
  · rw [hrest, Checked.offsetOf, Text.byteLength_append, Text.startOr_place, hpos]

theorem offsetOf_tail (h : p :: rest <:+ Text.place 0 text) :
    Checked.offsetOf text (p :: rest) + p.size = Checked.offsetOf text rest :=
  (Checked.offsetOf_append (a := [p]) h).symm

theorem size_of_isBlank (h : isBlank p.char = true) : p.size = 1 := by
  simp only [isBlank, Bool.or_eq_true, beq_iff_eq] at h
  rcases h with h | h <;> rw [Placed.size, h] <;> rfl

theorem offsetOf_dropNewline (h : p :: rest <:+ Text.place 0 text) (hp : isLineBreak p.char = true) :
    Checked.offsetOf text (p :: rest) +
        (Text.newlineLength? text (Checked.offsetOf text (p :: rest))).getD 1 =
      Checked.offsetOf text (dropNewline (p :: rest)) := by
  obtain ⟨after, hafter⟩ := Option.isSome_iff_exists.mp ((isSome_afterNewline? p rest).trans hp)
  rw [← Checked.behindNewline_chars h, Checked.behindNewline, Checked.newlineLength?_chars h, hafter]
  rfl

theorem offsetOf_continuation (h : chars <:+ Text.place 0 text) {length : Nat}
    (hlength : Text.continuationLength? text (Checked.offsetOf text chars) escape = some length) :
    ∃ after, afterContinuation? escape chars = some after ∧ after <:+ chars ∧
      Checked.offsetOf text chars + length = Checked.offsetOf text after := by
  rw [Checked.continuationLength?_chars h] at hlength
  obtain ⟨after, hafter, rfl⟩ := Option.map_eq_some_iff.mp hlength
  have hsuffix := (@afterContinuation?_tiling escape 0 _ _ hafter).suffix
  exact ⟨after, hafter, hsuffix, Nat.add_sub_cancel' (Text.startOr_le_startOr h hsuffix)⟩

end Offsets

/-- A step takes a turn, and adds what the turn reads. -/
def Turns (text : Text) (escape : Char) (l : Lexer) (chars : List Placed) (l' : Lexer) : Prop :=
  ∃ chars' comments instructions, At text l' chars' ∧ l'.comments = l.comments ++ comments ∧
    l'.instructions = l.instructions ++ instructions ∧
    Turn escape (Text.byteLength text) l.state chars comments instructions l'.state chars'

section Steps

variable {text : Text} {escape : Char} {l l' : Lexer} {chars : List Placed} {pos : Nat}
  {comments : List Comment} {instructions : List Instruction}

/-- Nothing is read but the offset and the state may change. -/
theorem Turns.quiet {state : State} {chars' : List Placed} {pos : Nat} (h : At text l chars)
    (hchars : chars' <:+ chars) (hpos : pos = Checked.offsetOf text chars')
    (hturn : Turn escape (Text.byteLength text) l.state chars [] [] state chars') :
    Turns text escape l chars { l with pos := pos, state := state } :=
  ⟨chars', [], [], ⟨hchars.trans h.suffix, hpos⟩, (List.append_nil _).symm, (List.append_nil _).symm,
    hturn⟩

theorem step_lineStart (h : At text ⟨pos, .lineStart, comments, instructions⟩ chars)
    (hs : step text escape ⟨pos, .lineStart, comments, instructions⟩ = some l') :
    Turns text escape ⟨pos, .lineStart, comments, instructions⟩ chars l' := by
  rw [step, h.rest_eq] at hs
  have hpos : pos = _ := h.pos
  cases chars with
  | nil =>
      obtain rfl := Option.some.inj hs
      exact .quiet h (List.suffix_refl _) hpos .finish
  | cons p rest =>
      simp only at hs
      split at hs
      · rename_i hp
        obtain rfl := Option.some.inj hs
        refine .quiet h (List.suffix_cons _ _) ?_ (.blank hp)
        rw [hpos, ← offsetOf_tail h.suffix, size_of_isBlank hp]
      split at hs
      · rename_i hp
        obtain rfl := Option.some.inj hs
        refine .quiet h (dropNewline_suffix _) ?_ (.terminator hp)
        rw [hpos, offsetOf_dropNewline h.suffix hp]
      split at hs
      · rename_i hp
        obtain rfl := Option.some.inj hs
        exact .quiet h (List.suffix_refl _) hpos (.mark hp)
      · rename_i hblank hbreak hmark
        obtain rfl := Option.some.inj hs
        refine .quiet h (List.suffix_refl _) hpos ?_
        rw [hpos]
        exact .word (by simp [Body.endsWord, hblank, hbreak]) hmark

theorem step_inComment (h : At text ⟨pos, .inComment, comments, instructions⟩ chars)
    (hs : step text escape ⟨pos, .inComment, comments, instructions⟩ = some l') :
    Turns text escape ⟨pos, .inComment, comments, instructions⟩ chars l' := by
  rw [step, h.rest_eq] at hs
  cases chars with
  | nil =>
      obtain rfl := Option.some.inj hs
      exact .quiet h (List.suffix_refl _) h.pos .noComment
  | cons mark rest =>
      obtain rfl := Option.some.inj hs
      have hread := (Comment.read_suffix (Text.byteLength text) mark.offset rest).trans
        (List.suffix_cons mark rest)
      exact ⟨_, _, [], ⟨hread.trans h.suffix, rfl⟩, rfl, (List.append_nil _).symm, .comment⟩

/-- The region ends here, at the end of the text or in front of a line break. -/
theorem Turns.endLine {inst : Pending}
    (h : At text ⟨pos, .inPart .region inst, comments, instructions⟩ chars)
    (hturn : Turn escape (Text.byteLength text) (.inPart .region inst) chars []
      (inst.instructions escape) .lineStart (dropNewline chars)) :
    Turns text escape ⟨pos, .inPart .region inst, comments, instructions⟩ chars
      (Lexer.endLine text escape ⟨pos, .inPart .region inst, comments, instructions⟩ inst) := by
  refine ⟨dropNewline chars, [], inst.instructions escape, ⟨(dropNewline_suffix _).trans h.suffix, ?_⟩,
    (List.append_nil _).symm, rfl, hturn⟩
  have hpos : pos = _ := h.pos
  rw [← Checked.behindNewline_chars h.suffix, ← hpos]
  rfl

theorem step_inPart {part : Part} {inst : Pending}
    (h : At text ⟨pos, .inPart part inst, comments, instructions⟩ chars)
    (hs : step text escape ⟨pos, .inPart part inst, comments, instructions⟩ = some l') :
    Turns text escape ⟨pos, .inPart part inst, comments, instructions⟩ chars l' := by
  rw [step, h.rest_eq] at hs
  have hpos : pos = _ := h.pos
  cases chars with
  | nil =>
      cases part with
      | keyword =>
          obtain rfl := Option.some.inj hs
          exact .quiet h (List.suffix_refl _) hpos .cutOff
      | region =>
          obtain rfl := Option.some.inj hs
          exact .endLine h .lastLine
  | cons p rest =>
      simp only at hs
      cases hlength : Text.continuationLength? text pos escape with
      | some length =>
          rw [hlength] at hs
          obtain rfl := Option.some.inj hs
          rw [hpos] at hlength
          obtain ⟨after, hafter, hsuffix, hnext⟩ := offsetOf_continuation h.suffix hlength
          exact .quiet h hsuffix (by rw [hpos, hnext]) (.continuation hafter)
      | none =>
          rw [hlength] at hs
          rw [hpos, Checked.continuationLength?_chars h.suffix, Option.map_eq_none_iff] at hlength
          simp only at hs
          split at hs
          · rename_i hends
            cases part with
            | keyword =>
                obtain rfl := Option.some.inj hs
                refine .quiet h (List.suffix_refl _) hpos ?_
                rw [hpos]
                exact .behindKeyword hlength hends
            | region =>
                obtain rfl := Option.some.inj hs
                exact .endLine h (.line hlength hends)
          · rename_i hkept
            obtain rfl := Option.some.inj hs
            refine .quiet h (List.suffix_cons _ _) ?_ (.char hlength (by simpa using hkept))
            rw [hpos, offsetOf_tail h.suffix]

theorem step_behindContinuation {part : Part} {inst : Pending}
    (h : At text ⟨pos, .behindContinuation part inst, comments, instructions⟩ chars)
    (hs : step text escape ⟨pos, .behindContinuation part inst, comments, instructions⟩ = some l') :
    Turns text escape ⟨pos, .behindContinuation part inst, comments, instructions⟩ chars l' := by
  rw [step, h.rest_eq] at hs
  have hpos : pos = _ := h.pos
  simp only at hs
  cases hfirst : chars.dropWhile fun p => isBlank p.char with
  | nil =>
      rw [hfirst] at hs
      obtain rfl := Option.some.inj hs
      exact .quiet h (List.suffix_refl _) hpos (.resume (Body.skipLines_of_nil hfirst))
  | cons p rest =>
      rw [hfirst] at hs
      have hsuffix := suffix_of_dropWhile hfirst
      simp only at hs
      split at hs
      · rename_i hp
        obtain rfl := Option.some.inj hs
        refine .quiet h ((dropNewline_suffix _).trans hsuffix) ?_ ?_
        · exact offsetOf_dropNewline (hsuffix.trans h.suffix) hp
        · rw [hpos]
          exact .emptyLine hfirst hp
      split at hs
      · rename_i hp
        obtain rfl := Option.some.inj hs
        have hread := (Comment.read_suffix (Text.byteLength text) p.offset rest).trans
          (List.suffix_cons p rest)
        exact ⟨_, _, [], ⟨hread.trans (hsuffix.trans h.suffix), rfl⟩, rfl, (List.append_nil _).symm,
          .commentLine hfirst hp⟩
      · rename_i hbreak hmark
        obtain rfl := Option.some.inj hs
        exact .quiet h (List.suffix_refl _) hpos
          (.resume (Body.skipLines_of_content hfirst (by simpa using hbreak) hmark))

theorem step_turns (h : At text l chars) (hs : step text escape l = some l') :
    Turns text escape l chars l' := by
  obtain ⟨pos, state, comments, instructions⟩ := l
  cases state with
  | lineStart => exact step_lineStart h hs
  | inComment => exact step_inComment h hs
  | inPart part inst => exact step_inPart h hs
  | behindContinuation part inst => exact step_behindContinuation h hs
  | eof pending =>
      cases pending with
      | none => cases hs
      | some inst =>
          obtain rfl := Option.some.inj hs
          exact ⟨chars, [], _, ⟨h.suffix, h.pos⟩, (List.append_nil _).symm, rfl, .close⟩

/-- There is a step unless the end is reached with nothing pending. -/
theorem step_eq_none_iff : step text escape l = none ↔ l.state = .eof none := by
  constructor
  · fun_cases step text escape l with
    | case19 hstate => exact fun _ => hstate
    | _ => exact fun h => nomatch h
  · intro h
    rw [step, h]

end Steps

/-! ## Progress -/

namespace State

/-- No fewer than the turns up to the next one that passes a character, or up to the end. -/
def rank : State → List Placed → Nat
  | lineStart, [] => 1
  | lineStart, _ :: _ => 3
  | inComment, _ => 2
  | inPart .keyword _, _ => 2
  | inPart .region _, [] => 2
  | inPart .region _, _ :: _ => 1
  | behindContinuation _ _, _ => 3
  | eof (some _), _ => 1
  | eof none, _ => 0

theorem rank_le (state : State) (chars : List Placed) : state.rank chars ≤ 3 := by
  unfold rank
  split <;> omega

/-- A line was started here, and some of it will be passed; or no line will be started any more. -/
def IsUnderWay : State → List Placed → Prop
  | inComment, _ :: _ => True
  | inPart .keyword _, p :: _ => Body.endsWord p.char = false
  | eof _, [] => True
  | _, _ => False

end State

namespace Turn

variable {escape : Char} {stop : Nat} {s s' : State} {chars chars' : List Placed}
  {comments : List Comment} {instructions : List Instruction}

theorem suffix (h : Turn escape stop s chars comments instructions s' chars') : chars' <:+ chars := by
  cases h with
  | finish | mark | word | noComment | cutOff | lastLine | behindKeyword | resume | close =>
      exact List.suffix_refl _
  | blank | char => exact List.suffix_cons _ _
  | terminator | line => exact dropNewline_suffix _
  | comment => exact (Comment.read_suffix _ _ _).trans (List.suffix_cons _ _)
  | continuation continues => exact (@afterContinuation?_tiling escape stop _ _ continues).suffix
  | emptyLine first => exact (dropNewline_suffix _).trans (suffix_of_dropWhile first)
  | commentLine first =>
      exact (Comment.read_suffix _ _ _).trans
        ((List.suffix_cons _ _).trans (suffix_of_dropWhile first))

/-- A turn passes a character, or it leads to a state that is nearer to passing one. -/
theorem length_lt_or (h : Turn escape stop s chars comments instructions s' chars') :
    chars'.length < chars.length ∨ chars' = chars ∧ s'.rank chars' < s.rank chars := by
  cases h with
  | finish | mark | word | noComment | cutOff | lastLine | behindKeyword | close =>
      exact .inr ⟨rfl, by simp [State.rank]⟩
  | @resume part inst =>
      refine .inr ⟨rfl, ?_⟩
      cases part with
      | keyword => exact Nat.lt_add_one 2
      | region => cases chars <;> simp [State.rank]
  | blank | char => exact .inl (Nat.lt_add_one _)
  | terminator ends | line _ ends => exact .inl (Checked.dropNewline_length_lt ends _)
  | comment => exact .inl (Checked.Comment.read_length_lt _ _ _)
  | continuation continues => exact .inl (afterContinuation?_length continues)
  | emptyLine first ends =>
      exact .inl (Nat.lt_of_lt_of_le (Checked.dropNewline_length_lt ends _)
        (suffix_of_dropWhile first).length_le)
  | commentLine first =>
      exact .inl (Nat.lt_of_lt_of_le (Checked.Comment.read_length_lt _ _ _)
        (suffix_of_dropWhile first).length_le)

/-- From the start of a line on, some of it is passed before the next one starts. -/
theorem length_lt_or_underWay (h : Turn escape stop s chars comments instructions s' chars')
    (hs : s = .lineStart ∨ s.IsUnderWay chars) :
    chars'.length < chars.length ∨ s'.IsUnderWay chars' := by
  cases h with
  | finish => exact .inr trivial
  | mark => exact .inr trivial
  | word content => exact .inr content
  | blank => exact .inl (Nat.lt_add_one _)
  | terminator ends => exact .inl (Checked.dropNewline_length_lt ends _)
  | comment => exact .inl (Checked.Comment.read_length_lt _ _ _)
  | continuation continues => exact .inl (afterContinuation?_length continues)
  | char => exact .inl (Nat.lt_add_one _)
  | behindKeyword plain ends =>
      obtain hs | hs := hs
      · cases hs
      · exact absurd hs (by simp [State.IsUnderWay, ends])
  | close =>
      obtain hs | hs := hs
      · cases hs
      · cases chars with
        | nil => exact .inr trivial
        | cons p rest => exact hs.elim
  | noComment | cutOff | lastLine | line | emptyLine | commentLine | resume => simp [State.IsUnderWay] at hs

end Turn

/-! ## What is read -/

section Remainder

variable (escape : Char) (stop : Nat)

def behindRegion (inst : Pending) (rest : List Placed) : Body :=
  (Body.read escape stop (dropNewline rest)).prepend [] (inst.instructions escape)

def readPart (part : Part) (behind : Pending → List Placed → Body) (inst : Pending)
    (chars : List Placed) : Body :=
  let run := Body.readUntil part.ends escape stop chars
  (behind ((inst.push run.chars part).pass run.emptyLines) run.rest).prepend run.comments []

def behindKeyword (inst : Pending) (rest : List Placed) : Body :=
  readPart escape stop .region (behindRegion escape stop)
    (inst.anchored (Placed.startOr inst.region.anchor rest)) rest

def behindPart : Part → Pending → List Placed → Body
  | .keyword => behindKeyword escape stop
  | .region => behindRegion escape stop

def remainder : State → List Placed → Body
  | .lineStart, chars => Body.read escape stop chars
  | .inComment, [] => ⟨[], []⟩
  | .inComment, mark :: rest =>
      let comment := Comment.read stop mark.offset rest
      (Body.read escape stop comment.2).prepend [comment.1] []
  | .inPart part inst, chars => readPart escape stop part (behindPart escape stop part) inst chars
  | .behindContinuation part inst, chars =>
      let skipped := Body.skipLines stop chars
      (readPart escape stop part (behindPart escape stop part) (inst.pass skipped.emptyLines)
        skipped.rest).prepend skipped.comments []
  | .eof none, _ => ⟨[], []⟩
  | .eof (some inst), _ => ⟨[], inst.instructions escape⟩

end Remainder

namespace Pending

variable (inst : Pending) (part : Part)

theorem push_nil : inst.push [] part = inst := by
  cases part <;> simp [push]

theorem push_append (a b : List Placed) : inst.push (a ++ b) part = (inst.push a part).push b part := by
  cases part <;> simp [push]

theorem push_pass (chars : List Placed) (lines : List Span) :
    (inst.pass lines).push chars part = (inst.push chars part).pass lines := by
  cases part <;> rfl

theorem pass_nil : inst.pass [] = inst := by
  simp [pass]

theorem pass_append (a b : List Span) : inst.pass (a ++ b) = (inst.pass a).pass b := by
  simp [pass]

end Pending

section ReadPart

variable {escape : Char} {stop : Nat} {part : Part} {behind : Pending → List Placed → Body}
  {inst : Pending} {chars rest after : List Placed} {p : Placed}

theorem readPart_nil : readPart escape stop part behind inst [] = behind inst [] := by
  rw [readPart, Body.readUntil]
  simp only [inst.push_nil, inst.pass_nil, Body.prepend_nil]

theorem readPart_of_end (h : afterContinuation? escape (p :: rest) = none)
    (hp : part.ends p.char = true) :
    readPart escape stop part behind inst (p :: rest) = behind inst (p :: rest) := by
  rw [readPart, Body.readUntil_of_end h hp]
  simp only [inst.push_nil, inst.pass_nil, Body.prepend_nil]

theorem readPart_of_char (h : afterContinuation? escape (p :: rest) = none)
    (hp : part.ends p.char = false) :
    readPart escape stop part behind inst (p :: rest) =
      readPart escape stop part behind (inst.push [p] part) rest := by
  rw [readPart, readPart, Body.readUntil_of_char h hp]
  simp only [← inst.push_append, List.singleton_append]

theorem readPart_of_continuation (h : afterContinuation? escape (p :: rest) = some after) :
    readPart escape stop part behind inst (p :: rest) =
      (readPart escape stop part behind (inst.pass (Body.skipLines stop after).emptyLines)
        (Body.skipLines stop after).rest).prepend (Body.skipLines stop after).comments [] := by
  rw [readPart, readPart, Body.readUntil_of_continuation h]
  simp only [inst.push_pass, Pending.pass_append, Body.prepend_prepend, List.append_nil]

end ReadPart

/-- The pending instruction that reading from the start of a line on leads to is that line, if it has
a keyword. -/
theorem instructions_lineAt {text : Text} {escape : Char} {p : Placed} {rest : List Placed}
    (h : p :: rest <:+ Text.place 0 text) :
    let keyword := Body.readUntil Body.endsWord escape (Text.byteLength text) (p :: rest)
    let region := Body.readUntil isLineBreak escape (Text.byteLength text) keyword.rest
    [Body.lineAt escape (Text.byteLength text) (p :: rest)].filter Instruction.isNamed =
      Pending.instructions escape ⟨⟨keyword.chars, p.offset⟩,
        ⟨region.chars, Placed.startOr p.offset keyword.rest⟩,
        keyword.emptyLines ++ region.emptyLines⟩ := by
  intro keyword region
  have hline : Body.lineAt escape (Text.byteLength text) (p :: rest) =
      Instruction.ofParts ⟨keyword.chars, p.offset⟩
        ⟨region.chars, Placed.startOr p.offset keyword.rest⟩
        (keyword.emptyLines ++ region.emptyLines) escape :=
    (Checked.ofParts_startOr (Checked.start_le_keyword_stop h escape) _ _ _ _).symm
  have hnamed : (Body.lineAt escape (Text.byteLength text) (p :: rest)).isNamed =
      !keyword.chars.isEmpty := rfl
  rw [List.filter_cons, List.filter_nil, hnamed, hline, Pending.instructions, Excerpt.isEmpty]
  cases keyword.chars.isEmpty <;> rfl

theorem read_of_word {text : Text} {escape : Char} {p : Placed} {rest : List Placed}
    (h : p :: rest <:+ Text.place 0 text) (content : Body.endsWord p.char = false)
    (hmark : p.char ≠ '#') :
    Body.read escape (Text.byteLength text) (p :: rest) =
      remainder escape (Text.byteLength text) (.inPart .keyword (.fresh p.offset)) (p :: rest) := by
  have hdrop : ((p :: rest).dropWhile fun q => Body.endsWord q.char) = p :: rest :=
    List.dropWhile_cons_of_neg (by simp [content])
  rw [(Body.read_of_line hdrop hmark).1, instructions_lineAt h, Body.commentsIn, List.append_assoc]
  rfl

theorem Turn.remainder_eq {text : Text} {escape : Char} {s s' : State} {chars chars' : List Placed}
    {comments : List Comment} {instructions : List Instruction}
    (h : Turn escape (Text.byteLength text) s chars comments instructions s' chars')
    (hchars : chars <:+ Text.place 0 text) :
    remainder escape (Text.byteLength text) s chars =
      (remainder escape (Text.byteLength text) s' chars').prepend comments instructions := by
  cases h with
  | finish => exact (Body.read_of_nil rfl).1
  | blank blank =>
      refine Body.read_of_dropWhile (List.dropWhile_cons_of_pos ?_)
      simp [Body.endsWord, blank]
  | terminator ends => exact Body.read_of_dropWhile (Body.dropWhile_dropNewline _).symm
  | mark mark =>
      refine (Body.read_of_comment (List.dropWhile_cons_of_neg ?_) mark).1
      simp [mark, Body.endsWord, isBlank, isLineBreak]
  | word content mark => exact read_of_word hchars content mark
  | noComment => exact (Body.read_of_nil rfl).1.symm
  | comment => rfl
  | @cutOff inst =>
      refine readPart_nil.trans (readPart_nil.trans ?_)
      rw [behindRegion, show dropNewline [] = [] from rfl, (Body.read_of_nil rfl).1]
      exact congrArg (Body.mk []) (List.append_nil _)
  | lastLine => exact readPart_nil
  | continuation continues => exact readPart_of_continuation continues
  | char plain kept => exact readPart_of_char plain kept
  | behindKeyword plain ends => exact readPart_of_end plain ends
  | line plain ends => exact readPart_of_end plain ends
  | @emptyLine part inst chars rest p first ends =>
      simp only [remainder, Body.skipLines_of_break first ends, ← inst.pass_append, Body.prepend_nil]
      rfl
  | commentLine first mark =>
      simp only [remainder, Body.skipLines_of_comment first mark, Body.prepend_prepend]
      rfl
  | @resume part inst chars content =>
      simp only [remainder, content, inst.pass_nil]
  | close => exact congrArg (Body.mk []) (List.append_nil _).symm

/-! ## Runs -/

section Runs

variable {text : Text} {escape : Char} {l l' : Lexer} {chars : List Placed}

def measure (text : Text) (l : Lexer) : Nat :=
  4 * (l.rest text).length + l.state.rank (l.rest text)

theorem measure_step (h : At text l chars) (hs : step text escape l = some l') :
    l'.measure text < l.measure text := by
  obtain ⟨chars', comments, instructions, hat, -, -, hturn⟩ := step_turns h hs
  have hrank := l'.state.rank_le chars'
  rw [measure, measure, h.rest_eq, hat.rest_eq]
  rcases hturn.length_lt_or with hlt | ⟨rfl, hlt⟩ <;> omega

theorem boundary_step (h : At text l chars) (hs : step text escape l = some l') :
    Text.isBoundary text l'.pos = true := by
  obtain ⟨chars', comments, instructions, hat, -⟩ := step_turns h hs
  exact hat.boundary

/-- All that a run goes through, from `l` on. -/
def trace (text : Text) (escape : Char) (l : Lexer) (h : Text.isBoundary text l.pos = true) :
    List Lexer :=
  match hs : step text escape l with
  | none => [l]
  | some next => l :: trace text escape next (boundary_step (at_rest h) hs)
termination_by l.measure text
decreasing_by exact measure_step (at_rest h) hs

theorem head?_trace (h : Text.isBoundary text l.pos = true) :
    (trace text escape l h).head? = some l := by
  rw [trace]
  split <;> rfl

/-- What each step preserves holds in the whole run. -/
theorem trace_induction {P : Lexer → Prop}
    (hstep : ∀ {l l' chars}, At text l chars → P l → step text escape l = some l' → P l')
    (h : Text.isBoundary text l.pos = true) (hl : P l) : ∀ m ∈ trace text escape l h, P m := by
  fun_induction trace text escape l h with
  | case1 l h hs =>
      intro m hm
      rwa [List.mem_singleton.mp hm]
  | case2 l h next hs ih =>
      intro m hm
      rcases List.mem_cons.mp hm with rfl | hm
      · exact hl
      · exact ih (hstep (at_rest h) hl hs) m hm

theorem trace_steps (h : Text.isBoundary text l.pos = true) :
    (trace text escape l h).IsChain fun a b => step text escape a = some b := by
  fun_induction trace text escape l h with
  | case1 l h hs => exact .singleton l
  | case2 l h next hs ih =>
      obtain ⟨more, hmore⟩ := List.head?_eq_some_iff.mp (head?_trace (boundary_step (at_rest h) hs))
      rw [hmore] at ih ⊢
      exact .cons_cons hs ih

theorem exists_getLast?_trace (h : Text.isBoundary text l.pos = true) :
    ∃ last, (trace text escape l h).getLast? = some last ∧ step text escape last = none := by
  fun_induction trace text escape l h with
  | case1 l h hs => exact ⟨l, rfl, hs⟩
  | case2 l h next hs ih =>
      obtain ⟨last, hlast, hend⟩ := ih
      exact ⟨last, by rw [List.getLast?_cons, hlast]; rfl, hend⟩

/-! ### What a run preserves -/

def EndsWell (text : Text) (l : Lexer) : Prop :=
  ∀ pending, l.state = .eof pending → l.rest text = []

theorem endsWell_step (h : At text l chars) (hl : l.EndsWell text)
    (hs : step text escape l = some l') : l'.EndsWell text := by
  obtain ⟨chars', comments, instructions, hat, -, -, hturn⟩ := step_turns h hs
  intro pending hstate
  rw [hat.rest_eq]
  generalize hfrom : l.state = s at hturn
  rw [hstate] at hturn
  cases hturn with
  | finish | cutOff => rfl
  | close => rw [← h.rest_eq, hl _ hfrom]

/-- What was read, and what is still read. -/
def total (text : Text) (escape : Char) (l : Lexer) : Body :=
  (remainder escape (Text.byteLength text) l.state (l.rest text)).prepend l.comments l.instructions

theorem total_step (h : At text l chars) (hs : step text escape l = some l') :
    l'.total text escape = l.total text escape := by
  obtain ⟨chars', comments, instructions, hat, hcomments, hinstructions, hturn⟩ := step_turns h hs
  rw [total, total, h.rest_eq, hat.rest_eq, hcomments, hinstructions, hturn.remainder_eq h.suffix,
    Body.prepend_prepend]

/-- `m` is behind `l`, and further on in the text unless the line that starts at `l` is under way. -/
structure Behind (text : Text) (l m : Lexer) : Prop where
  suffix : m.rest text <:+ l.rest text
  passed : l.state = .lineStart →
    (m.rest text).length < (l.rest text).length ∨ m.state.IsUnderWay (m.rest text)

theorem Behind.of_step (h : At text l chars) (hs : step text escape l = some l') :
    Behind text l l' := by
  obtain ⟨chars', comments, instructions, hat, -, -, hturn⟩ := step_turns h hs
  refine ⟨?_, fun hstate => ?_⟩
  · rw [h.rest_eq, hat.rest_eq]
    exact hturn.suffix
  · rw [h.rest_eq, hat.rest_eq]
    exact hturn.length_lt_or_underWay (.inl hstate)

theorem Behind.step {m m' : Lexer} (h : Behind text l m) (hm : At text m chars)
    (hs : step text escape m = some m') : Behind text l m' := by
  obtain ⟨chars', comments, instructions, hat, -, -, hturn⟩ := step_turns hm hs
  have hlength := hturn.suffix.length_le
  have hsuffix := h.suffix.length_le
  have hpassed := h.passed
  rw [hm.rest_eq] at hsuffix hpassed
  refine ⟨?_, fun hstate => ?_⟩
  · rw [hat.rest_eq]
    exact hturn.suffix.trans (hm.rest_eq ▸ h.suffix)
  · rw [hat.rest_eq]
    rcases hpassed hstate with hlt | hunder
    · exact .inl (by omega)
    · exact (hturn.length_lt_or_underWay (.inr hunder)).imp_left fun hlt => by omega

theorem Behind.pos_le (h : Behind text l l') (hl : At text l chars)
    (hl' : Text.isBoundary text l'.pos = true) : l.pos ≤ l'.pos := by
  rw [hl.pos, (at_rest hl').pos]
  exact Text.startOr_le_startOr hl.suffix (hl.rest_eq ▸ h.suffix)

theorem Behind.pos_lt (h : Behind text l l') (hl : At text l chars)
    (hl' : Text.isBoundary text l'.pos = true) (hstate : l.state = .lineStart)
    (hstate' : l'.state = .lineStart) : l.pos < l'.pos := by
  have hsuffix := h.suffix
  have hpassed := h.passed hstate
  rw [hl.rest_eq] at hsuffix hpassed
  rw [hl.pos, (at_rest hl').pos]
  refine Checked.offsetOf_lt hl.suffix hsuffix (hpassed.resolve_right fun hunder => ?_)
  rw [hstate'] at hunder
  exact hunder

theorem trace_behind (h : Text.isBoundary text l.pos = true) :
    (trace text escape l h).Pairwise (Behind text) := by
  fun_induction trace text escape l h with
  | case1 l h hs => exact List.pairwise_singleton _ _
  | case2 l h next hs ih =>
      refine .cons ?_ ih
      exact trace_induction (fun hm hbehind => hbehind.step hm) _ (.of_step (at_rest h) hs)

end Runs

/-- A whole run over a text, from an offset on. -/
structure Run (text : Text) (escape : Char) (offset : Nat) (trace : List Lexer) : Prop where
  starts : trace.head? = some (start offset)
  steps : trace.IsChain fun l l' => step text escape l = some l'
  /-- The offset is always between characters. -/
  boundary : ∀ l ∈ trace, Text.isBoundary text l.pos = true
  /-- It never decreases. -/
  ordered : trace.Pairwise fun l l' => l.pos ≤ l'.pos
  /-- It increases from one start of a line to the next. -/
  progress : trace.Pairwise fun l l' =>
    l.state = .lineStart → l'.state = .lineStart → l.pos < l'.pos
  /-- There is no step from the end of the text with nothing pending, and all was read there. -/
  ends : ∃ last, trace.getLast? = some last ∧ step text escape last = none ∧
    last.state = .eof none ∧ last.pos = Text.byteLength text ∧
    Body.mk last.comments last.instructions = Body.read escape (Text.byteLength text)
      (Text.place offset (Text.dropBytes offset text))

/-- From each boundary of a text on, the lexer comes to the end of the text, makes progress in each
line, and reads the body. -/
theorem run_reads (text : Text) (escape : Char) (offset : Nat)
    (h : Text.isBoundary text offset = true) :
    Run text escape offset (trace text escape (start offset) h) := by
  have hboundary : ∀ l ∈ trace text escape (start offset) h, Text.isBoundary text l.pos = true :=
    trace_induction (fun hl _ hs => boundary_step hl hs) h h
  have hbehind : (trace text escape (start offset) h).Pairwise (Behind text) := trace_behind h
  refine ⟨head?_trace h, trace_steps h, hboundary, ?_, ?_, ?_⟩
  · exact hbehind.imp_of_mem fun hl hl' hll' =>
      hll'.pos_le (at_rest (hboundary _ hl)) (hboundary _ hl')
  · exact hbehind.imp_of_mem fun hl hl' hll' =>
      hll'.pos_lt (at_rest (hboundary _ hl)) (hboundary _ hl')
  · obtain ⟨last, hlast, hend⟩ := @exists_getLast?_trace text escape (start offset) h
    have hmem := List.mem_of_getLast? hlast
    have hstate := step_eq_none_iff.mp hend
    have hrest : last.rest text = [] :=
      trace_induction (fun hl hwell hs => endsWell_step hl hwell hs) h (by rintro pending ⟨⟩) last hmem
        none hstate
    have htotal : last.total text escape = (start offset).total text escape :=
      trace_induction (P := fun m => m.total text escape = (start offset).total text escape)
        (fun hl hsame hs => (total_step hl hs).trans hsame) h rfl last hmem
    refine ⟨last, hlast, hend, hstate, ?_, ?_⟩
    · rw [(at_rest (hboundary last hmem)).pos, hrest]
      rfl
    · rw [total, hstate] at htotal
      have hread : Body.mk (last.comments ++ []) (last.instructions ++ []) =
          Body.read escape (Text.byteLength text)
            (Text.place offset (Text.dropBytes offset text)) := htotal
      rwa [List.append_nil, List.append_nil] at hread

/-- Behind a comment, an instruction with an empty line in it. -/
theorem run_reads_continued :
    let text := "# a\nRUN x \\\n\n y".toList
    Text.isBoundary text 4 = true ∧ ∃ visited, Run text '\\' 4 visited ∧
      (visited.filter fun l => l.state = .lineStart).map Lexer.pos = [4, 15] :=
  ⟨by decide, _, run_reads _ '\\' 4 (by decide), by decide +kernel⟩

end Lexer

end Dockerfile
