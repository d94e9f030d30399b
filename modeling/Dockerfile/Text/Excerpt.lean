import Dockerfile.Text.Line

/-!
# Excerpts

Reading a file drops continuations, blank lines and comments out of the middle of what it reads, so
the characters that are kept do not lie side by side. An `Excerpt` therefore keeps each character
together with the offset it has in the file. Positions inside an excerpt are counted in bytes of the
kept characters; `rawOffset` and `spanAt` lead from them back to the file.
-/

namespace Dockerfile

/-- A character and the byte offset at which it stands in a file. -/
structure Placed where
  char : Char
  offset : Nat
  deriving DecidableEq, Repr, Inhabited

namespace Placed

/-- The number of bytes the character takes. -/
def size (p : Placed) : Nat :=
  p.char.utf8Size

def stop (p : Placed) : Nat :=
  p.offset + p.size

def span (p : Placed) : Span :=
  ⟨p.offset, p.stop⟩

def text (chars : List Placed) : Text :=
  chars.map Placed.char

/-- From the start of one character to the end of another. -/
def spanTo (first last : Placed) : Span :=
  ⟨first.offset, max last.stop first.offset⟩

def startOr (stop : Nat) : List Placed → Nat
  | [] => stop
  | p :: _ => p.offset

def stopOr (anchor : Nat) (chars : List Placed) : Nat :=
  match chars.getLast? with
  | none => anchor
  | some p => p.stop

end Placed

namespace Text

def place : Nat → Text → List Placed
  | _, [] => []
  | offset, c :: rest => ⟨c, offset⟩ :: place (offset + c.utf8Size) rest

end Text

/-- Characters of a file with their places. Without characters, `anchor` is where it stands. -/
structure Excerpt where
  chars : List Placed
  anchor : Nat
  deriving DecidableEq, Repr, Inhabited

namespace Excerpt

def ofText (offset : Nat) (text : Text) : Excerpt :=
  ⟨Text.place offset text, offset⟩

def text (e : Excerpt) : Text :=
  Placed.text e.chars

def byteLength (e : Excerpt) : Nat :=
  total Placed.size e.chars

def isEmpty (e : Excerpt) : Bool :=
  e.chars.isEmpty

def start (e : Excerpt) : Nat :=
  Placed.startOr e.anchor e.chars

def stop (e : Excerpt) : Nat :=
  Placed.stopOr e.anchor e.chars

def span (e : Excerpt) : Span :=
  ⟨e.start, max e.stop e.start⟩

def part (e : Excerpt) (kept rest : List Placed) : Excerpt :=
  ⟨kept, Placed.startOr e.stop rest⟩

/-- The offset in the file of the byte at `index` among these characters. -/
def offsetIn (stop : Nat) : List Placed → Nat → Nat
  | [], _ => stop
  | p :: rest, index => if index < p.size then p.offset + index else offsetIn stop rest (index - p.size)

/-- The offset in the file of a byte of the excerpt; past the last byte, the end. -/
def rawOffset (e : Excerpt) (index : Nat) : Nat :=
  offsetIn e.stop e.chars index

def spanAt (e : Excerpt) (start stop : Nat) : Span :=
  let first := e.rawOffset start
  if stop ≤ start then Span.empty first
  else
    let last := if stop ≤ e.byteLength then e.rawOffset (stop - 1) + 1 else e.stop
    ⟨first, max last first⟩

def slice (e : Excerpt) (start stop : Nat) : Excerpt :=
  let stop := min stop e.byteLength
  let start := min start stop
  let rest := dropFit Placed.size start e.chars
  let kept := takeFit Placed.size (stop - start) rest
  e.part kept (dropFit Placed.size (stop - start) rest)

/-- Splits off the leading spaces and tabs: those, and what follows. -/
def leadingBlanks (chars : List Placed) : List Placed × List Placed :=
  (chars.takeWhile fun p => isBlank p.char, chars.dropWhile fun p => isBlank p.char)

/-- The bytes between the leading and the trailing spaces and tabs. A blank excerpt is trimmed to
nothing at its end. -/
def trimmedBounds (e : Excerpt) : Nat × Nat :=
  let start := total Placed.size (leadingBlanks e.chars).1
  let stop := Text.byteLength (Text.trimBlanksEnd e.text)
  (start, max stop start)

/-- The excerpt without the spaces and tabs around it. -/
def trim (e : Excerpt) : Excerpt :=
  let bounds := e.trimmedBounds
  e.slice bounds.1 bounds.2

/-- The first byte of the excerpt that stands at or behind `offset` of the file, or the number of
bytes if none does. -/
def indexAt (e : Excerpt) (offset : Nat) : Nat :=
  go e.chars
where
  /-- Counts the bytes in front of `offset`. -/
  go : List Placed → Nat
    | [] => 0
    | p :: rest =>
        if offset ≤ p.offset then 0
        else if offset < p.stop then offset - p.offset
        else p.size + go rest

/-- The characters that end at or in front of the byte found by `indexAt`. -/
def textBefore (e : Excerpt) (offset : Nat) : Text :=
  Text.takeBytes (e.indexAt offset) e.text

end Excerpt

end Dockerfile
