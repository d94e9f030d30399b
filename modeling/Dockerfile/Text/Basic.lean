/-!
# Text and its measures

A text is the list of its characters. It is measured in two units besides characters: bytes of its
UTF-8 form, in which every offset of this library is counted, and UTF-16 code units, in which
editors count columns. Taking and dropping by bytes never cuts a character: an offset inside a
character stands for the start of that character.
-/

namespace Dockerfile

abbrev Text := List Char

def total (size : α → Nat) : List α → Nat
  | [] => 0
  | x :: xs => size x + total size xs

/-- The longest initial part whose size is at most `limit`. -/
def takeFit (size : α → Nat) : Nat → List α → List α
  | _, [] => []
  | limit, x :: xs => if size x ≤ limit then x :: takeFit size (limit - size x) xs else []

def dropFit (size : α → Nat) : Nat → List α → List α
  | _, [] => []
  | limit, x :: xs => if size x ≤ limit then dropFit size (limit - size x) xs else x :: xs

@[simp] theorem total_nil (size : α → Nat) : total size [] = 0 := rfl

@[simp] theorem total_cons (size : α → Nat) (x : α) (xs : List α) :
    total size (x :: xs) = size x + total size xs := rfl

@[simp] theorem total_append (size : α → Nat) (xs ys : List α) :
    total size (xs ++ ys) = total size xs + total size ys := by
  induction xs with
  | nil => simp
  | cons x xs ih => simp [ih, Nat.add_assoc]

@[simp] theorem takeFit_append_dropFit (size : α → Nat) (limit : Nat) (xs : List α) :
    takeFit size limit xs ++ dropFit size limit xs = xs := by
  induction xs generalizing limit with
  | nil => rfl
  | cons x xs ih =>
      by_cases h : size x ≤ limit
      · simp [takeFit, dropFit, h, ih]
      · simp [takeFit, dropFit, h]

theorem total_takeFit_le (size : α → Nat) (limit : Nat) (xs : List α) :
    total size (takeFit size limit xs) ≤ limit := by
  induction xs generalizing limit with
  | nil => simp [takeFit]
  | cons x xs ih =>
      by_cases h : size x ≤ limit
      · have := ih (limit - size x)
        simp [takeFit, h]
        omega
      · simp [takeFit, h]

/-- The number of UTF-16 code units of a character: two above the basic plane, one below it. -/
def unitSize (c : Char) : Nat :=
  if 0x10000 ≤ c.toNat then 2 else 1

def isBlank (c : Char) : Bool :=
  c == ' ' || c == '\t'

def isLineBreak (c : Char) : Bool :=
  c == '\r' || c == '\n'

namespace Text

def byteLength (text : Text) : Nat :=
  total Char.utf8Size text

def unitLength (text : Text) : Nat :=
  total unitSize text

def takeBytes (limit : Nat) (text : Text) : Text :=
  takeFit Char.utf8Size limit text

def dropBytes (limit : Nat) (text : Text) : Text :=
  dropFit Char.utf8Size limit text

/-- The nearest character boundary at or before `offset`; the end for offsets past it. -/
def floorBoundary (text : Text) (offset : Nat) : Nat :=
  byteLength (takeBytes offset text)

/-- Whether `offset` is where a character starts, or the end. -/
def isBoundary (text : Text) (offset : Nat) : Bool :=
  floorBoundary text offset == offset

/-- The shortest initial part with at least `units` code units, or the whole text. -/
def takeUnits : Nat → Text → Text
  | _, [] => []
  | units, c :: rest => if units = 0 then [] else c :: takeUnits (units - unitSize c) rest

/-- The text without its leading spaces and tabs. -/
def trimBlanksStart (text : Text) : Text :=
  text.dropWhile isBlank

/-- The text without its trailing spaces and tabs. -/
def trimBlanksEnd (text : Text) : Text :=
  (text.reverse.dropWhile isBlank).reverse

/-- The text without the spaces and tabs around it. -/
def trimBlanks (text : Text) : Text :=
  trimBlanksEnd (trimBlanksStart text)

/-- ASCII letters in lower case, all else unchanged. -/
def lowercase (text : Text) : Text :=
  text.map Char.toLower

/-- ASCII letters in upper case, all else unchanged. -/
def uppercase (text : Text) : Text :=
  text.map Char.toUpper

/-- Equality up to the case of ASCII letters. -/
def sameIgnoringCase (a b : Text) : Bool :=
  lowercase a == lowercase b

def cutAt (p : Char → Bool) (text : Text) : Text × Text :=
  (text.takeWhile fun c => !p c, text.dropWhile fun c => !p c)

def parts (p : Char → Bool) : Text → List Text
  | [] => [[]]
  | c :: rest =>
      if p c then [] :: parts p rest
      else
        match parts p rest with
        | [] => [[c]]
        | first :: others => (c :: first) :: others

def occursIn (pattern : Text) : Text → Bool
  | [] => pattern.isEmpty
  | c :: rest => pattern.isPrefixOf (c :: rest) || occursIn pattern rest

end Text

end Dockerfile
