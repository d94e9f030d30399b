import Dockerfile.Text.Mark
import Dockerfile.Text.Decomposition

/-!
# Canonical form

One text can be written in several ways: with composites, or with characters and marks, and with the
marks in several orders. In its canonical form all characters are decomposed, the marks are in the
order of their combining classes, and what can be composed then is composed.
-/

namespace Dockerfile

namespace Text

/-- Puts a mark at its place among marks in order: behind those of its class and of lower ones. -/
def insertMark (mark : Char) : Text → Text
  | [] => [mark]
  | other :: rest =>
      if combiningClass other ≤ combiningClass mark then other :: insertMark mark rest
      else mark :: other :: rest

/-- A text with every run of marks in the order of their classes. The marks in front of the rest of
the text are `pending`. -/
def orderFrom (pending : Text) : Text → Text
  | [] => pending
  | c :: rest =>
      if combiningClass c = 0 then pending ++ c :: orderFrom [] rest
      else orderFrom (insertMark c pending) rest

def orderMarks (text : Text) : Text :=
  orderFrom [] text

/-- Whether marks stand between a character and the one that it would be composed with: the last of
them has no lower class. -/
def isBlocked (pending : Text) (c : Char) : Bool :=
  match pending.getLast? with
  | some last => combiningClass c ≤ combiningClass last
  | none => false

/-- Composes what follows `base` with it where that is possible. The marks that were not composed
with it are `pending`. -/
def composeFrom (base : Char) (pending : Text) : Text → Text
  | [] => base :: pending
  | c :: rest =>
      match if isBlocked pending c then none else composite? base c with
      | some composed => composeFrom composed pending rest
      | none =>
          if combiningClass c = 0 then base :: pending ++ composeFrom c [] rest
          else composeFrom base (pending ++ [c]) rest

def compose : Text → Text
  | [] => []
  | c :: rest => if combiningClass c = 0 then composeFrom c [] rest else c :: compose rest

/-- The canonical form of a text. ASCII is its own canonical form. -/
def canonical (text : Text) : Text :=
  if text.all fun c => c.toNat < 0x80 then text else compose (orderMarks (decompose text))

end Text

end Dockerfile
