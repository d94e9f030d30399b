import Dockerfile.Configuration
import Dockerfile.Editor.Edit

/-!
# Layout

Formatting moves lines only: instructions and comments start at the left margin, the further lines
of an instruction are indented by one unit, and blank lines lose their blanks.
-/

namespace Dockerfile

structure IndentOptions where
  tabSize : Nat
  insertSpaces : Bool
  deriving DecidableEq, Repr

namespace Layout

def unit (options : IndentOptions) : Text :=
  if options.insertSpaces then List.replicate (max options.tabSize 1) ' ' else ['\t']

def extents (a : Analysis) : List (Nat × Nat) :=
  a.file.instructions.map fun inst =>
    (Text.lineOf a.text inst.keywordSpan.start, Text.lineOf a.text inst.extent.stop)

/-- Whether a line is a further line of one of the instructions with these extents. -/
def isContinued (extents : List (Nat × Nat)) (number : Nat) : Bool :=
  extents.any fun extent => extent.1 < number && number ≤ extent.2

def indentation (line : Line) : Text :=
  line.content.takeWhile isBlank

def reindent (text : Text) (line : Line) (indent : Text) : TextEdit :=
  TextEdit.ofSpan text ⟨line.start, line.start + Text.byteLength (indentation line)⟩ indent

def indentLine? (text : Text) (number : Nat) (indent : Text) : Option TextEdit :=
  let line := Text.line text number
  let indent := if line.content.all isBlank then [] else indent
  if indentation line = indent then none else some (reindent text line indent)

def formatLine? (text : Text) (extents : List (Nat × Nat)) (options : IndentOptions)
    (settings : FormatterSettings) (number : Nat) : Option TextEdit :=
  if isContinued extents number then
    if settings.ignoreMultilineInstructions then none
    else indentLine? text number (unit options)
  else indentLine? text number []

def formatLines (a : Analysis) (options : IndentOptions) (settings : FormatterSettings)
    (numbers : List Nat) : List TextEdit :=
  let extents := extents a
  numbers.filterMap (formatLine? a.text extents options settings)

def continues (text : Text) (escape : Char) (line : Line) : Bool :=
  (Text.place line.start (line.content ++ line.terminator)).any fun p =>
    p.char == escape && (Text.continuationLength? text p.offset escape).isSome

end Layout

namespace Analysis

def format (a : Analysis) (options : IndentOptions) (settings : FormatterSettings) :
    List TextEdit :=
  Layout.formatLines a options settings (List.range (Text.lines a.text).length)

/-- The edits that format the lines of a range; one that ends at the margin leaves out that line. -/
def formatRange (a : Analysis) (range : Range) (options : IndentOptions)
    (settings : FormatterSettings) : List TextEdit :=
  let first := range.start.line
  let last := if range.stop.character = 0 ∧ first < range.stop.line then range.stop.line - 1
    else range.stop.line
  let last := min last ((Text.lines a.text).length - 1)
  Layout.formatLines a options settings (List.range' first (last + 1 - first))

/-- The edit for a line that was just begun with a line break, if the line before it goes on. -/
def formatOnType (a : Analysis) (position : Position) (typed : Text) (options : IndentOptions)
    (settings : FormatterSettings) : List TextEdit :=
  let number := position.line
  if typed ≠ ['\n'] ∨ number = 0 ∨ settings.ignoreMultilineInstructions ∨
      (Text.lines a.text).length ≤ number ∨
      !Layout.continues a.text a.file.escape (Text.line a.text (number - 1)) then []
  else
    let line := Text.line a.text number
    let indent := Layout.unit options
    if Layout.indentation line = indent then [] else [Layout.reindent a.text line indent]

end Analysis

end Dockerfile
