import Dockerfile.Body
import Dockerfile.Directive

/-!
# Files

A file as it is written: directives, comments and instructions, each with its place in the text.
-/

namespace Dockerfile

/-- The parts of a file. Comments include the directives, which come first. -/
structure File where
  directives : List Directive
  comments : List Comment
  instructions : List Instruction
  deriving DecidableEq, Repr

namespace File

def selectedEscape? (directives : List Directive) : Option Char :=
  directives.findSome? Directive.escapeChar?

def escapeUnder (directives : List Directive) : Char :=
  (selectedEscape? directives).getD defaultEscape

def escape (file : File) : Char :=
  escapeUnder file.directives

def declaresEscape (file : File) : Bool :=
  (selectedEscape? file.directives).isSome

def parse (text : Text) : File :=
  let found := Directive.readAll text
  let body := Body.read (escapeUnder found.1) (Text.byteLength text)
    (Text.place found.2 (Text.dropBytes found.2 text))
  ⟨found.1, found.1.map (Directive.comment text) ++ body.comments, body.instructions⟩

/-- The first instruction that a cursor at `offset` touches, with its number. -/
def instructionAt? (file : File) (offset : Nat) : Option (Nat × Instruction) :=
  (file.instructions.zipIdx.find? fun p => p.1.span.contains offset).map fun p => (p.2, p.1)

end File

end Dockerfile
