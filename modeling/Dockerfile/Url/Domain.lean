import Dockerfile.Text.Canonical
import Dockerfile.Text.Direction
import Dockerfile.Text.Joining
import Dockerfile.Text.Mark
import Dockerfile.Url.DomainMapping
import Dockerfile.Url.Punycode

/-!
# Domain names

A domain name consists of labels between dots. Labels of all scripts are accepted and written in
ASCII: a label with other characters is written as its Punycode behind `xn--`. Main rule: two names
that differ only in case, or in how a character is composed, are written in the same way.
-/

namespace Dockerfile

namespace Url

/-- What may not stand in a domain name: controls, the space, and what has a meaning in addresses. -/
def isForbiddenInDomain (c : Char) : Bool :=
  c.toNat ≤ 0x20 || c.toNat == 0x7f || "%#/:<>?@[\\]^|".toList.contains c

def punycodeMark : Text :=
  "xn--".toList

/-- Whether letters join across what stands between them: the last letter of what precedes, which is
in reverse, and the first of what follows. -/
def joinsAcross (before after : Text) : Bool :=
  (before.dropWhile Joining.isTransparent).head?.any Joining.joinsNext &&
    (after.dropWhile Joining.isTransparent).head?.any Joining.joinsPrevious

/-- Whether every joiner of a label has its place behind a virama; one that keeps letters apart may
also stand between letters that would join. What precedes is in reverse. -/
def joinersFit (before : Text) : Text → Bool
  | [] => true
  | c :: rest =>
      let fits :=
        if c.toNat = 0x200D then before.head?.any isVirama
        else if c.toNat = 0x200C then before.head?.any isVirama || joinsAcross before rest
        else true
      fits && joinersFit (c :: before) rest

def isValidLabel (label : Text) : Bool :=
  label.all (fun c => !isForbiddenInDomain c && isPlainChar c) &&
    !label.head?.any isMark && joinersFit [] label

/-- Reads a label that is written as Punycode: it has to be in canonical form and to need Punycode. -/
def decodeLabel? (code : Text) : Option Text := do
  let label ← Punycode.decode? code
  if label.all (fun c => c.toNat < 0x80) || Text.canonical label != label then none
  else return label

def label? (text : Text) : Option Text := do
  let label ← if punycodeMark.isPrefixOf text then decodeLabel? (text.drop 4) else some text
  if isValidLabel label then some label else none

/-- Whether a character makes a domain name one with two directions. -/
def isFromRight (d : Direction) : Bool :=
  d == .rightToLeft || d == .arabicLetter || d == .arabicNumber

def fitsAnywhere (d : Direction) : Bool :=
  d == .europeanNumber || d == .numberSign || d == .numberSeparator || d == .numberTerminator ||
    d == .neutral || d == .boundary || d == .attached

/-- Whether a label that is written from right to left keeps to its direction. -/
def fitsFromRight (classes : List Direction) (last : Direction) : Bool :=
  classes.all (fun d => isFromRight d || fitsAnywhere d) &&
    (isFromRight last || last == .europeanNumber) &&
    !(classes.contains .europeanNumber && classes.contains .arabicNumber)

def fitsFromLeft (classes : List Direction) (last : Direction) : Bool :=
  classes.all (fun d => d == .leftToRight || fitsAnywhere d) &&
    (last == .leftToRight || last == .europeanNumber)

/-- Whether a label of a domain name with two directions can be told apart from its neighbours. Marks
at its end do not count. -/
def keepsDirection (label : Text) : Bool :=
  let classes := label.map Direction.of
  match classes, (classes.reverse.dropWhile fun d => d == .attached).head? with
  | [], _ => true
  | first :: _, some last =>
      if first == .rightToLeft || first == .arabicLetter then fitsFromRight classes last
      else first == .leftToRight && fitsFromLeft classes last
  | _, none => false

/-- Whether the labels of a domain name keep to their directions, if some go from right to left. -/
def directionsFit (labels : List Text) : Bool :=
  let isMixed := labels.any fun label => label.any fun c => 0x80 ≤ c.toNat && isFromRight (.of c)
  !isMixed || labels.all keepsDirection

def writeLabel (label : Text) : Text :=
  if label.all fun c => c.toNat < 0x80 then label else punycodeMark ++ Punycode.encode label

def domain? (name : Text) : Option Text := do
  let mapped := Text.canonical (← name.mapM mapChar?).flatten
  let labels ← (Text.parts (fun c => c == '.') mapped).mapM label?
  if directionsFit labels then
    return List.intercalate ['.'] (labels.map writeLabel)
  else none

end Url

end Dockerfile
