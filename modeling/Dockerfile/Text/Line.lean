import Dockerfile.Text.Span

/-!
# Lines

A line ends with a line feed, a carriage return, or both in that order. The last line has no
terminator, so every text has at least one line.
-/

namespace Dockerfile

/-- A line of a text: where it starts, what it holds, and the terminator behind it. -/
structure Line where
  start : Nat
  content : Text
  terminator : Text
  deriving DecidableEq, Repr, Inhabited

namespace Line

def stop (line : Line) : Nat :=
  line.start + Text.byteLength line.content

def span (line : Line) : Span :=
  ⟨line.start, line.stop⟩

def prepend (c : Char) : List Line → List Line
  | [] => []
  | line :: lines => { line with content := c :: line.content } :: lines

end Line

namespace Text

/-- The lines of a text at offset `offset` of a file, the first of which began at `start`. -/
def linesFrom (start offset : Nat) : Text → List Line
  | [] => [⟨start, [], []⟩]
  | '\r' :: '\n' :: rest => ⟨start, [], ['\r', '\n']⟩ :: linesFrom (offset + 2) (offset + 2) rest
  | c :: rest =>
      if isLineBreak c then
        ⟨start, [], [c]⟩ :: linesFrom (offset + 1) (offset + 1) rest
      else
        Line.prepend c (linesFrom start (offset + c.utf8Size) rest)

def lines (text : Text) : List Line :=
  linesFrom 0 0 text

def lineIndex (offset : Nat) (lines : List Line) : Nat :=
  (lines.takeWhile fun line => line.start ≤ offset).length - 1

/-- The line that holds `offset`; offsets past the end belong to the last line. -/
def lineOf (text : Text) (offset : Nat) : Nat :=
  lineIndex (min offset (byteLength text)) (lines text)

/-- A line by its number; behind the last line there are only empty ones at the end. -/
def line (text : Text) (number : Nat) : Line :=
  (lines text)[number]?.getD ⟨byteLength text, [], []⟩

def lineStart (text : Text) (number : Nat) : Nat :=
  (line text number).start

def lineStop (text : Text) (number : Nat) : Nat :=
  (line text number).stop

/-- The editor position of a byte offset: an offset inside a character counts as its start, and one
inside or behind a terminator as the end of the line's content. -/
def positionAt (text : Text) (offset : Nat) : Position :=
  let offset := floorBoundary text offset
  let number := lineOf text offset
  let line := line text number
  ⟨number, unitLength (takeBytes (offset - line.start) line.content)⟩

/-- The byte offset of an editor position, clamped to the line's content and to the text. A column
inside a surrogate pair stands for the end of the pair. -/
def offsetAt (text : Text) (position : Position) : Nat :=
  match (lines text)[position.line]? with
  | none => byteLength text
  | some line => line.start + byteLength (takeUnits position.character line.content)

def rangeOf (text : Text) (span : Span) : Range :=
  ⟨positionAt text span.start, positionAt text span.stop⟩

/-- The span of an editor range, whichever way round it was given. -/
def spanOf (text : Text) (range : Range) : Span :=
  let a := offsetAt text range.start
  let b := offsetAt text range.stop
  ⟨min a b, max a b⟩

/-- A span with both ends moved back to character boundaries inside the text, and in order. -/
def clampSpan (text : Text) (span : Span) : Span :=
  let start := floorBoundary text span.start
  ⟨start, max start (floorBoundary text span.stop)⟩

def slice (text : Text) (span : Span) : Text :=
  let span := clampSpan text span
  takeBytes (span.stop - span.start) (dropBytes span.start text)

/-- Widens an empty span by one character so that an editor can show it: over the next character,
or, in front of a line break or the end, over the one before. -/
def widen (text : Text) (span : Span) : Span :=
  let span := clampSpan text span
  if span.start ≠ span.stop then span
  else
    let backward :=
      match (takeBytes span.start text).getLast? with
      | some c => if isLineBreak c then span else ⟨span.start - c.utf8Size, span.start⟩
      | none => span
    match dropBytes span.start text with
    | c :: _ => if isLineBreak c then backward else ⟨span.start, span.start + c.utf8Size⟩
    | [] => backward

end Text

end Dockerfile
