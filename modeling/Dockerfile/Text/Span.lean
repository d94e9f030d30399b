import Dockerfile.Text.Basic

/-!
# Places in a file

A `Span` is a half-open range of byte offsets. A `Position` is what an editor shows: a line and a
column in UTF-16 code units, both counted from zero.
-/

namespace Dockerfile

/-- The bytes from `start` up to, and without, `stop`. -/
structure Span where
  start : Nat
  stop : Nat
  deriving DecidableEq, Repr, Inhabited

namespace Span

def empty (offset : Nat) : Span :=
  ⟨offset, offset⟩

def isEmpty (span : Span) : Bool :=
  span.start == span.stop

/-- Whether a cursor at `offset` touches the span. Both ends count, so that a cursor right behind
a word still belongs to it. -/
def contains (span : Span) (offset : Nat) : Bool :=
  span.start ≤ offset && offset ≤ span.stop

def cover (a b : Span) : Span :=
  ⟨min a.start b.start, max a.stop b.stop⟩

end Span

/-- A line, and a column in UTF-16 code units. An editor counts both in words of 32 bits, which are
enough for a text of less than 4 GiB (`Text.toUInt32_positionAt`). -/
structure Position where
  line : Nat
  character : Nat
  deriving DecidableEq, Repr, Inhabited

namespace Position

def before (a b : Position) : Bool :=
  a.line < b.line || (a.line == b.line && a.character < b.character)

def display (p : Position) : String :=
  toString (p.line + 1) ++ ":" ++ toString (p.character + 1)

end Position

/-- What an editor selects between two positions. -/
structure Range where
  start : Position
  stop : Position
  deriving DecidableEq, Repr, Inhabited

namespace Range

def display (r : Range) : String :=
  if r.start.line = r.stop.line then
    r.start.display ++ "-" ++ toString (r.stop.character + 1)
  else
    r.start.display ++ "-" ++ r.stop.display

end Range

end Dockerfile
