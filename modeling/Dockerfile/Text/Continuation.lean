import Dockerfile.Text.Excerpt

/-!
# Line terminators and continuations

A continuation is the escape character, then spaces or tabs, then a line terminator: the
instruction goes on in the next line. Each function here answers with what remains behind the thing
it recognises, and that remainder is always shorter.
-/

namespace Dockerfile

def defaultEscape : Char := '\\'

/-- What follows a line terminator, if the characters start with one. -/
def afterNewline? : List Placed → Option (List Placed)
  | [] => none
  | p :: rest =>
      if p.char = '\r' then
        match rest with
        | q :: rest' => if q.char = '\n' then some rest' else some rest
        | [] => some []
      else if p.char = '\n' then some rest
      else none

def afterContinuation? (escape : Char) : List Placed → Option (List Placed)
  | [] => none
  | p :: rest =>
      if p.char = escape then afterNewline? (rest.dropWhile fun q => isBlank q.char) else none

theorem afterNewline?_length {chars rest : List Placed} (h : afterNewline? chars = some rest) :
    rest.length < chars.length := by
  cases chars with
  | nil => simp [afterNewline?] at h
  | cons p tail =>
      cases tail with
      | nil =>
          simp only [afterNewline?] at h
          split at h
          · cases h; simp
          · split at h
            · cases h; simp
            · cases h
      | cons q tail =>
          simp only [afterNewline?] at h
          split at h
          · split at h <;> cases h <;> simp only [List.length_cons] <;> omega
          · split at h
            · cases h; simp
            · cases h

theorem length_dropWhile_le (p : α → Bool) (xs : List α) :
    (xs.dropWhile p).length ≤ xs.length :=
  (List.dropWhile_sublist p).length_le

theorem afterContinuation?_length {escape : Char} {chars rest : List Placed}
    (h : afterContinuation? escape chars = some rest) : rest.length < chars.length := by
  cases chars with
  | nil => simp [afterContinuation?] at h
  | cons p tail =>
      simp only [afterContinuation?] at h
      split at h
      · have h1 := afterNewline?_length h
        have h2 := length_dropWhile_le (fun q : Placed => isBlank q.char) tail
        simp only [List.length_cons]
        omega
      · cases h

/-- What remains once a line terminator, if there is one, is passed. -/
def dropNewline (chars : List Placed) : List Placed :=
  (afterNewline? chars).getD chars

theorem dropNewline_length (chars : List Placed) : (dropNewline chars).length ≤ chars.length := by
  unfold dropNewline
  cases h : afterNewline? chars with
  | none => simp
  | some rest => simpa using Nat.le_of_lt (afterNewline?_length h)

namespace Text

/-- The characters of a file from `offset` on, if a character starts there. -/
def placedFrom? (text : Text) (offset : Nat) : Option (List Placed) :=
  if isBoundary text offset then some (place offset (dropBytes offset text)) else none

/-- The number of bytes from `offset` to where `rest`, an end of the text, starts. -/
def bytesUpTo (text : Text) (offset : Nat) (rest : List Placed) : Nat :=
  Placed.startOr (byteLength text) rest - offset

/-- The number of bytes of the line terminator at `offset`. -/
def newlineLength? (text : Text) (offset : Nat) : Option Nat :=
  ((placedFrom? text offset).bind afterNewline?).map (bytesUpTo text offset)

def continuationLength? (text : Text) (offset : Nat) (escape : Char) : Option Nat :=
  ((placedFrom? text offset).bind (afterContinuation? escape)).map (bytesUpTo text offset)

end Text

end Dockerfile
