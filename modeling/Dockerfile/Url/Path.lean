import Dockerfile.Text.Basic

/-!
# Escapes and paths in addresses

A character that may not stand in a part of an address is written as the bytes of its UTF-8 form, each
as a percent sign and two digits. Which characters these are depends on the part.

A path is a list of segments. A segment of one dot stays at its place, one of two dots goes up by
one, but not above the root and not above a drive: a letter and a colon or a bar. In the address of a
file, a drive at the start of the path takes the place of the host, and empty segments at the start
do not count.
-/

namespace Dockerfile

namespace Url

/-! ## Escapes -/

def percentByte (byte : UInt8) : Text :=
  let digit := fun (n : Nat) => (Nat.digitChar n).toUpper
  ['%', digit (byte.toNat / 16), digit (byte.toNat % 16)]

/-- A character as its bytes, each written as a percent sign and two digits. -/
def percentEncode (c : Char) : Text :=
  (String.utf8EncodeChar c).flatMap percentByte

/-- Writes a text with the characters that satisfy `reserved` as bytes. -/
def encode (reserved : Char → Bool) (text : Text) : Text :=
  text.flatMap fun c => if reserved c then percentEncode c else [c]

def isControl (c : Char) : Bool :=
  c.toNat < 0x20 || 0x7f ≤ c.toNat

def inFragment (c : Char) : Bool :=
  isControl c || c == ' ' || c == '"' || c == '<' || c == '>' || c == '\x60'

def inQuery (c : Char) : Bool :=
  isControl c || c == ' ' || c == '"' || c == '<' || c == '>'

def inSpecialQuery (c : Char) : Bool :=
  inQuery c || c == '\x27'

def inPath (c : Char) : Bool :=
  inFragment c || c == '\x7b' || c == '\x7d'

def inUser (c : Char) : Bool :=
  inPath c || "/:;=@[\\]^|".toList.contains c

def hexValue? (c : Char) : Option UInt8 :=
  if c.isDigit then some (c.toNat - '0'.toNat).toUInt8
  else if 'a' ≤ c.toLower && c.toLower ≤ 'f' then some (c.toLower.toNat - 'a'.toNat + 10).toUInt8
  else none

/-- The bytes of a text in which escapes stand for their bytes. A percent sign that begins no escape
stands for itself. -/
def percentDecode : Text → List UInt8
  | [] => []
  | '%' :: a :: b :: rest =>
      match hexValue? a, hexValue? b with
      | some high, some low => (16 * high + low) :: percentDecode rest
      | _, _ => '%'.toUInt8 :: percentDecode (a :: b :: rest)
  | c :: rest => String.utf8EncodeChar c ++ percentDecode rest

/-- The text that is meant by a text with escapes, if its bytes are the UTF-8 form of one. -/
def unescape? (text : Text) : Option Text :=
  (String.fromUTF8? ⟨(percentDecode text).toArray⟩).map String.toList

/-! ## Paths -/

def isSingleDot (segment : Text) : Bool :=
  [".", "%2e"].any fun s => s.toList == Text.lowercase segment

def isDoubleDot (segment : Text) : Bool :=
  ["..", ".%2e", "%2e.", "%2e%2e"].any fun s => s.toList == Text.lowercase segment

/-- A letter and a colon or a bar: the name of a drive. -/
def isDrive : Text → Bool
  | [c, d] => c.isAlpha && (d == ':' || d == '|')
  | _ => false

def isIgnored (c : Char) : Bool :=
  c == '\t' || isLineBreak c

def visible (text : Text) : Text :=
  text.filter fun c => !isIgnored c

/-- Goes up by one, but not above a drive. The segments are in reverse. -/
def parent : List Text → List Text
  | [] => []
  | last :: rest => if isDrive last then last :: rest else rest

/-- The segments after one more, all in reverse. Dots at the end of a path leave an empty segment. -/
def enter (passed : List Text) (isLast : Bool) (segment : Text) : List Text :=
  let close := fun (segments : List Text) => if isLast then [] :: segments else segments
  if isDoubleDot segment then close (parent passed)
  else if isSingleDot segment then close passed
  else encode inPath segment :: passed

/-- Follows the segments of a path from those already passed, which are in reverse. -/
def walk (passed : List Text) : List Text → List Text
  | [] => passed
  | segment :: rest => walk (enter passed rest.isEmpty segment) rest

def renderSegments (segments : List Text) : Text :=
  segments.flatMap fun segment => '/' :: segment

/-- The path of an address, without its first slash, in its common form. -/
def path (isSlash : Char → Bool) (text : Text) : Text :=
  renderSegments (walk [] (Text.parts isSlash text)).reverse

structure FilePath where
  segments : List Text
  hasDrive : Bool := false

/-- A drive in front of the rest of a segment, which a tab or a line break behind the colon divides
from it. -/
def dividedDrive? (segment : Text) : Option (Text × Text) :=
  match segment.dropWhile isIgnored with
  | [] => none
  | letter :: rest =>
      match rest.dropWhile isIgnored with
      | ':' :: mark :: name =>
          if letter.isAlpha && isIgnored mark && !(visible name).isEmpty then
            some ([letter, ':'], visible name)
          else none
      | _ => none

/-- Follows the segments of the path of a file. A drive counts as one if nothing has been passed. -/
def FilePath.walk (passed : FilePath) : List Text → FilePath
  | [] => passed
  | segment :: rest =>
      let shown := visible segment
      let next : FilePath :=
        if passed.segments.isEmpty && isDrive shown then
          { segments := [shown.take 1 ++ [':']], hasDrive := true }
        else
          match if passed.segments.isEmpty then dividedDrive? segment else none with
          | some (drive, name) => { passed with segments := [encode inPath name, drive] }
          | none => { passed with segments := enter passed.segments rest.isEmpty shown }
      next.walk rest

/-- The path of a file from its segments, without the empty ones at its start. -/
def filePath (segments : List Text) : FilePath :=
  let passed := FilePath.walk ⟨[], false⟩ segments
  match passed.segments.reverse.dropWhile List.isEmpty with
  | [] => { passed with segments := [[]] }
  | segments => { passed with segments }

end Url

end Dockerfile
