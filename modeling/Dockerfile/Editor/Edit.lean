import Dockerfile.Analysis

/-!
# Edits

A text edit replaces what an editor selects. Edits of one answer do not overlap and refer to the text
before any of them, so they are applied from the last to the first.
-/

namespace Dockerfile

structure TextEdit where
  range : Range
  newText : Text
  deriving DecidableEq, Repr

structure WorkspaceEdit where
  uri : String
  edits : List TextEdit
  deriving DecidableEq, Repr

namespace Text

def replaceSpan (text : Text) (span : Span) (newText : Text) : Text :=
  takeBytes span.start text ++ newText ++ dropBytes span.stop text

end Text

namespace TextEdit

def ofSpan (text : Text) (span : Span) (newText : Text) : TextEdit :=
  ⟨Text.rangeOf text span, newText⟩

def apply (text : Text) (edit : TextEdit) : Text :=
  Text.replaceSpan text (Text.spanOf text edit.range) edit.newText

def applyAll (text : Text) (edits : List TextEdit) : Text :=
  edits.foldr (fun edit result => apply result edit) text

end TextEdit

namespace Instruction

def extent (inst : Instruction) : Span :=
  ⟨inst.keywordSpan.start, max inst.span.stop inst.region.span.stop⟩

end Instruction

namespace File

def instructionAround? (file : File) (offset : Nat) : Option (Nat × Instruction) :=
  (file.instructions.zipIdx.find? fun p => p.1.extent.contains offset).map fun p => (p.2, p.1)

end File

end Dockerfile
