import Dockerfile.Comment
import Dockerfile.Instruction

/-!
# The body of a file

Behind the directives a file consists of comments and instructions. An instruction runs to the end
of its line; a continuation carries it on to the next line that is neither blank nor a comment. The
lines passed over are recorded, but do not end the instruction.

Every reader here answers with the characters that remain, and a lemma says that they got fewer.
-/

namespace Dockerfile

namespace Body

structure Skipped where
  emptyLines : List Span
  comments : List Comment
  rest : List Placed
  deriving DecidableEq, Repr

/-- Passes blank lines and comment lines. The blanks in front of the next line's content stay. -/
def skipLines (stop : Nat) (chars : List Placed) : Skipped :=
  match _hc : chars.dropWhile fun p => isBlank p.char with
  | [] => ⟨[], [], chars⟩
  | p :: rest =>
      if isLineBreak p.char then
        let next := skipLines stop (dropNewline (p :: rest))
        { next with emptyLines := ⟨Placed.startOr stop chars, p.offset⟩ :: next.emptyLines }
      else if p.char = '#' then
        let comment := Comment.read stop p.offset rest
        let next := skipLines stop comment.2
        { next with comments := comment.1 :: next.comments }
      else ⟨[], [], chars⟩
termination_by chars.length
decreasing_by
  · rename_i hb
    have h1 := length_dropWhile_le (fun p : Placed => isBlank p.char) chars
    rw [_hc] at h1
    have h2 : (dropNewline (p :: rest)).length < (p :: rest).length := by
      unfold dropNewline
      cases hn : afterNewline? (p :: rest) with
      | some tail => exact afterNewline?_length hn
      | none =>
          simp only [isLineBreak, Bool.or_eq_true, beq_iff_eq] at hb
          rcases hb with hb | hb
          · cases rest with
            | nil => simp [afterNewline?, hb] at hn
            | cons q tail =>
                simp only [afterNewline?, hb, if_true] at hn
                split at hn <;> cases hn
          · simp [afterNewline?, hb] at hn
    omega
  · have h1 := length_dropWhile_le (fun p : Placed => isBlank p.char) chars
    rw [_hc] at h1
    have h2 := Comment.read_length stop p.offset rest
    simp only [List.length_cons] at h1
    omega

theorem skipLines_length (stop : Nat) (chars : List Placed) :
    (skipLines stop chars).rest.length ≤ chars.length := by
  fun_induction skipLines stop chars with
  | case1 => simp
  | case2 chars p rest hc _ next ih =>
      have h1 := length_dropWhile_le (fun p : Placed => isBlank p.char) chars
      rw [hc] at h1
      have h2 := dropNewline_length (p :: rest)
      exact Nat.le_trans ih (Nat.le_trans h2 h1)
  | case3 chars p rest hc _ _ comment next ih =>
      have h1 := length_dropWhile_le (fun p : Placed => isBlank p.char) chars
      rw [hc] at h1
      have h2 : comment.2.length ≤ rest.length := Comment.read_length stop p.offset rest
      have h3 : next.rest.length ≤ comment.2.length := ih
      simp only [List.length_cons] at h1
      show next.rest.length ≤ _
      omega
  | case4 => simp

/-- What is read of an instruction: the characters kept, what was passed over, and what follows. -/
structure Run where
  chars : List Placed
  emptyLines : List Span
  comments : List Comment
  rest : List Placed
  deriving DecidableEq, Repr

def readUntil (ends : Char → Bool) (escape : Char) (stop : Nat) : List Placed → Run
  | [] => ⟨[], [], [], []⟩
  | p :: rest =>
      match _hc : afterContinuation? escape (p :: rest) with
      | some after =>
          let skipped := skipLines stop after
          let next := readUntil ends escape stop skipped.rest
          { next with
            emptyLines := skipped.emptyLines ++ next.emptyLines
            comments := skipped.comments ++ next.comments }
      | none =>
          if ends p.char then ⟨[], [], [], p :: rest⟩
          else
            let next := readUntil ends escape stop rest
            { next with chars := p :: next.chars }
termination_by chars => chars.length
decreasing_by
  · have h1 := afterContinuation?_length _hc
    have h2 := skipLines_length stop after
    omega
  · simp

theorem readUntil_length (ends : Char → Bool) (escape : Char) (stop : Nat) (chars : List Placed) :
    (readUntil ends escape stop chars).rest.length ≤ chars.length := by
  fun_induction readUntil ends escape stop chars with
  | case1 => simp
  | case2 p rest after hc skipped next ih =>
      have h1 := afterContinuation?_length hc
      have h2 : skipped.rest.length ≤ after.length := skipLines_length stop after
      have h3 : next.rest.length ≤ skipped.rest.length := ih
      show next.rest.length ≤ _
      omega
  | case3 => simp
  | case4 p rest hc _ next ih =>
      have h : next.rest.length ≤ rest.length := ih
      show next.rest.length ≤ _
      simp only [List.length_cons]
      omega

/-- Reading takes something if the first character does not end it. -/
theorem readUntil_length_lt (ends : Char → Bool) (escape : Char) (stop : Nat) (p : Placed)
    (rest : List Placed) (h : ends p.char = false) :
    (readUntil ends escape stop (p :: rest)).rest.length < (p :: rest).length := by
  rw [readUntil]
  split
  · rename_i after hc
    have h1 := afterContinuation?_length hc
    have h2 := skipLines_length stop after
    have h3 := readUntil_length ends escape stop (skipLines stop after).rest
    show (readUntil ends escape stop (skipLines stop after).rest).rest.length < _
    omega
  · simp only [h, Bool.false_eq_true, if_false]
    have h3 := readUntil_length ends escape stop rest
    show (readUntil ends escape stop rest).rest.length < _
    simp only [List.length_cons]
    omega

def endsWord (c : Char) : Bool :=
  isBlank c || isLineBreak c

end Body

/-- The comments and the instructions of a file, each in the order of reading. -/
structure Body where
  comments : List Comment
  instructions : List Instruction
  deriving DecidableEq, Repr

namespace Body

/-- Reads comments and instructions to the end of the file, which is at `stop`. What starts with a
continuation and then a blank has no keyword, and is dropped. -/
def read (escape : Char) (stop : Nat) (chars : List Placed) : Body :=
  match _hc : chars.dropWhile fun p => endsWord p.char with
  | [] => ⟨[], []⟩
  | p :: rest =>
      if p.char = '#' then
        let comment := Comment.read stop p.offset rest
        let next := read escape stop comment.2
        { next with comments := comment.1 :: next.comments }
      else
        let keyword := readUntil endsWord escape stop (p :: rest)
        let region := readUntil isLineBreak escape stop keyword.rest
        let next := read escape stop (dropNewline region.rest)
        let word : Excerpt := ⟨keyword.chars, p.offset⟩
        let inst := Instruction.ofParts word
          ⟨region.chars, Placed.startOr word.stop keyword.rest⟩
          (keyword.emptyLines ++ region.emptyLines) escape
        ⟨keyword.comments ++ region.comments ++ next.comments,
          if word.isEmpty then next.instructions else inst :: next.instructions⟩
termination_by chars.length
decreasing_by
  · have h1 := length_dropWhile_le (fun p : Placed => endsWord p.char) chars
    rw [_hc] at h1
    have h2 := Comment.read_length stop p.offset rest
    simp only [List.length_cons] at h1
    omega
  · have h1 := length_dropWhile_le (fun p : Placed => endsWord p.char) chars
    have hhead := @List.head?_dropWhile_not _ (fun p : Placed => endsWord p.char) chars
    rw [_hc] at h1 hhead
    have h2 := readUntil_length_lt endsWord escape stop p rest (by simpa using hhead)
    have h3 := readUntil_length isLineBreak escape stop
      (readUntil endsWord escape stop (p :: rest)).rest
    have h4 := dropNewline_length (readUntil isLineBreak escape stop
      (readUntil endsWord escape stop (p :: rest)).rest).rest
    omega

end Body

end Dockerfile
