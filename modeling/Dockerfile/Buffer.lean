import Dockerfile.Editor.Edit

/-!
# Buffers

While a document is edited, its text is kept in a buffer to which changes are applied one after the
other. A buffer knows more line breaks than a Dockerfile does: also the vertical tab, the form feed,
the next-line character and the Unicode line and paragraph separators end a line. Positions inside a
line are clamped to its content, from which only line feeds and carriage returns are left out.
-/

namespace Dockerfile

/-- A change of a document: the replacement of a range, or of the whole text. -/
structure Change where
  range : Option Range
  text : Text
  deriving DecidableEq, Repr

namespace Buffer

def isBreak (c : Char) : Bool :=
  isLineBreak c || c == '\x0b' || c == '\x0c' || c == '\u0085' || c == '\u2028' || c == '\u2029'

def lines : Text → List Text
  | [] => [[]]
  | '\r' :: '\n' :: rest => ['\r', '\n'] :: lines rest
  | c :: rest =>
      if isBreak c then [c] :: lines rest
      else
        match lines rest with
        | [] => [[c]]
        | line :: others => (c :: line) :: others

/-- A line without the line feeds and carriage returns at its end. -/
def content (line : Text) : Text :=
  (line.reverse.dropWhile isLineBreak).reverse

/-- The number of characters in front of a position. A column inside a surrogate pair stands for the
start of the pair; positions behind the last line stand for the end. -/
def charIndex (text : Text) (position : Position) : Nat :=
  let lines := lines text
  match lines[position.line]? with
  | none => text.length
  | some line =>
      (lines.take position.line).flatten.length +
        (takeFit unitSize position.character (content line)).length

def applyChange (text : Text) (change : Change) : Text :=
  match change.range with
  | none => change.text
  | some range =>
      let a := charIndex text range.start
      let b := charIndex text range.stop
      text.take (min a b) ++ change.text ++ text.drop (max a b)

def applyChanges (text : Text) (changes : List Change) : Text :=
  changes.foldl applyChange text

end Buffer

end Dockerfile
