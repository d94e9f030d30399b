import Dockerfile.Text.Continuation

/-!
# Comments

A comment is a line whose first character other than a blank is `#`. Its text is what stands behind
the mark, without the blanks around it.
-/

namespace Dockerfile

/-- A comment line: its place from the mark on, and the text behind the mark with its place. -/
structure Comment where
  span : Span
  contentSpan : Span
  text : Text
  deriving DecidableEq, Repr

namespace Comment

/-- The comment whose mark stands at `start`, with `body` between the mark and `stop`. -/
def ofBody (start stop : Nat) (body : Text) : Comment :=
  let content := Text.trimBlanks body
  let contentStart := start + 1 + Text.byteLength (body.takeWhile isBlank)
  ⟨⟨start, stop⟩, ⟨contentStart, contentStart + Text.byteLength content⟩, content⟩

/-- Reads the comment whose mark stands at `start` and whose body comes next, and passes the
terminator of its line. `stop` is where the file ends. -/
def read (stop start : Nat) (chars : List Placed) : Comment × List Placed :=
  let body := chars.takeWhile fun p => !isLineBreak p.char
  let rest := chars.dropWhile fun p => !isLineBreak p.char
  (ofBody start (Placed.startOr stop rest) (Placed.text body), dropNewline rest)

theorem read_length (stop start : Nat) (chars : List Placed) :
    (read stop start chars).2.length ≤ chars.length :=
  Nat.le_trans (dropNewline_length _) (length_dropWhile_le _ chars)

end Comment

end Dockerfile
