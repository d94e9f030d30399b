import Dockerfile.Editor.Edit

/-!
# Folding

What an editor can collapse: instructions that take several lines, and runs of comment lines.
-/

namespace Dockerfile

inductive FoldKind where
  | comment
  | region
  deriving DecidableEq, Repr

structure Fold where
  startLine : Nat
  stopLine : Nat
  kind : FoldKind
  deriving DecidableEq, Repr

namespace Fold

def ofInstruction? (text : Text) (inst : Instruction) : Option Fold :=
  let first := Text.lineOf text inst.span.start
  let last := Text.lineOf text inst.span.stop
  if first < last then some ⟨first, last, .region⟩ else none

/-- The maximal runs of consecutive numbers in a list in increasing order, where the run at its
front began at `first` and has reached `last`. -/
def runsFrom (first last : Nat) : List Nat → List (Nat × Nat)
  | [] => [(first, last)]
  | n :: rest =>
      if n = last then runsFrom first last rest
      else if n = last + 1 then runsFrom first n rest
      else (first, last) :: runsFrom n n rest

def runs : List Nat → List (Nat × Nat)
  | [] => []
  | n :: rest => runsFrom n n rest

def ofComments (text : Text) (comments : List Comment) : List Fold :=
  let lines := (comments.map fun c => Text.lineOf text c.span.start).mergeSort fun a b => a ≤ b
  ((runs lines).filter fun r => r.1 < r.2).map fun r => ⟨r.1, r.2, .comment⟩

end Fold

namespace Analysis

def folds (a : Analysis) : List Fold :=
  (a.file.instructions.filterMap (Fold.ofInstruction? a.text) ++
    Fold.ofComments a.text a.file.comments).mergeSort fun f g => f.startLine ≤ g.startLine

end Analysis

end Dockerfile
