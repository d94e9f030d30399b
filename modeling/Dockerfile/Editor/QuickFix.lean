import Dockerfile.Editor.Edit
import Dockerfile.Text.Unicode

/-!
# Quick fixes

Some findings can be mended by a command. A fix is offered for the code of a finding; the edit that
it makes is computed later, from the range of the finding and the text as it is then.
-/

namespace Dockerfile

inductive Fix where
  | uppercaseInstruction
  | lowercaseDirective
  | escapeDirective
  | convertToAs
  | maintainerToLabel
  | removeEmptyLine
  | removeArgument
  | removeFlag
  | convertToDoubleQuotes
  deriving DecidableEq, Repr

/-- A fix that is offered: its title, the command, and the value to use if there is a choice. -/
structure FixOffer where
  title : String
  fix : Fix
  value : Option String := none
  deriving DecidableEq, Repr

namespace Fix

def all : List Fix :=
  [uppercaseInstruction, lowercaseDirective, escapeDirective, convertToAs, maintainerToLabel,
   removeEmptyLine, removeArgument, removeFlag, convertToDoubleQuotes]

def command : Fix → String
  | uppercaseInstruction => "dockerls.fix.uppercaseInstruction"
  | lowercaseDirective => "dockerls.fix.lowercaseDirective"
  | escapeDirective => "dockerls.fix.escapeDirective"
  | convertToAs => "dockerls.fix.convertToAs"
  | maintainerToLabel => "dockerls.fix.maintainerToLabel"
  | removeEmptyLine => "dockerls.fix.removeEmptyContinuationLine"
  | removeArgument => "dockerls.fix.removeArgument"
  | removeFlag => "dockerls.fix.removeFlag"
  | convertToDoubleQuotes => "dockerls.fix.convertToDoubleQuotes"

def ofCommand? (name : String) : Option Fix :=
  all.find? fun fix => fix.command == name

def offers : Code → List FixOffer
  | .casingInstruction => [{ title := "Convert instruction to uppercase", fix := uppercaseInstruction }]
  | .casingDirective => [{ title := "Convert directive to lowercase", fix := lowercaseDirective }]
  | .invalidEscapeDirective =>
      [{ title := "Set escape character to \\", fix := escapeDirective, value := some "\\" },
       { title := "Set escape character to `", fix := escapeDirective, value := some "`" }]
  | .invalidAs => [{ title := "Convert to AS", fix := convertToAs }]
  | .deprecatedMaintainer => [{ title := "Convert MAINTAINER to a LABEL", fix := maintainerToLabel }]
  | .emptyContinuationLine => [{ title := "Remove empty continuation line", fix := removeEmptyLine }]
  | .argumentUnnecessary => [{ title := "Remove unnecessary argument", fix := removeArgument }]
  | .argumentRequiresOne | .argumentExtra =>
      [{ title := "Remove extra argument", fix := removeArgument }]
  | .flagDuplicate => [{ title := "Remove duplicate flag", fix := removeFlag }]
  | .singleQuotedArray => [{ title := "Convert to double quotes", fix := convertToDoubleQuotes }]
  | _ => []

def withLeadingBlanks (text : Text) (span : Span) : Span :=
  let blanks := (Text.takeBytes span.start text).reverse.takeWhile isBlank
  ⟨span.start - Text.byteLength blanks, span.stop⟩

/-- An array in single quotes with double quotes; double quotes inside are escaped. -/
def doubleQuotes (inside : Bool) : Text → Text
  | [] => []
  | c :: rest =>
      if c = '\x27' then '"' :: doubleQuotes (!inside) rest
      else if c = '"' ∧ inside then '\\' :: '"' :: doubleQuotes inside rest
      else c :: doubleQuotes inside rest

/-- A text in double quotes, unless it already is. -/
def quoteLabel (value : Text) : Text :=
  if value.head? = some '"' ∧ value.getLast? = some '"' ∧ 1 < value.length then value
  else '"' :: (value.flatMap fun c => if c = '"' then ['\\', '"'] else [c]) ++ ['"']

def replacement? (a : Analysis) (span : Span) (value : Option String) :
    Fix → Option (Span × Text)
  | uppercaseInstruction => some (span, Text.uppercase (Text.slice a.text span))
  | lowercaseDirective => some (span, Text.lowercase (Text.slice a.text span))
  | escapeDirective =>
      match value with
      | some "\\" => some (span, ['\\'])
      | some "`" => some (span, ['\x60'])
      | _ => none
  | convertToAs => some (span, "AS".toList)
  | maintainerToLabel =>
      (a.file.instructions.find? fun inst => inst.keywordSpan == span).map fun inst =>
        (inst.span, "LABEL maintainer=".toList ++ quoteLabel (Text.trim inst.region.text))
  | removeEmptyLine =>
      let number := Text.lineOf a.text span.start
      some (⟨Text.lineStart a.text number, Text.lineStart a.text (number + 1)⟩, [])
  | removeArgument => some (withLeadingBlanks a.text span, [])
  | removeFlag =>
      ((a.file.instructions.flatMap Instruction.flags).find? fun f => f.name.span == span).map
        fun f => (withLeadingBlanks a.text f.span, [])
  | convertToDoubleQuotes => some (span, doubleQuotes false (Text.slice a.text span))

def edit? (a : Analysis) (fix : Fix) (range : Range) (value : Option String) : Option TextEdit :=
  (replacement? a (Text.spanOf a.text range) value fix).map fun r =>
    TextEdit.ofSpan a.text r.1 r.2

end Fix

end Dockerfile
