import Dockerfile.Text.Basic

/-!
# Numeric hosts

A host can be a number. A host of the fourth version is a number of 32 bits, written as up to four
parts between dots, in base eight, ten or sixteen; the last part holds all bytes that are left. A
host of the sixth version is eight numbers of 16 bits in base 16 between colons, in which one run of
zeros can be left out. Both have one form in which they are shown.
-/

namespace Dockerfile

def digitIn? (base : Nat) (c : Char) : Option Nat :=
  let value :=
    if c.isDigit then c.toNat - '0'.toNat
    else if c.isAlpha then c.toLower.toNat - 'a'.toNat + 10
    else base
  if value < base then some value else none

def numberIn? (base : Nat) (digits : Text) : Option Nat :=
  digits.foldlM (fun n c => (digitIn? base c).map fun d => base * n + d) 0

/-- A host of the fourth version of the protocol. -/
structure Ipv4 where
  value : UInt32
  deriving DecidableEq, Repr

namespace Ipv4

/-- A part of a host: in base 16 behind `0x`, in base eight behind another zero, else in base ten. -/
def part? : Text → Option Nat
  | [] => none
  | '0' :: 'x' :: digits | '0' :: 'X' :: digits => numberIn? 16 digits
  | '0' :: c :: digits => numberIn? 8 (c :: digits)
  | digits => numberIn? 10 digits

/-- The parts between the dots; a dot at the end does not count. -/
def split (text : Text) : List Text :=
  let parts := Text.parts (fun c => c == '.') text
  match parts.getLast? with
  | some [] => parts.dropLast
  | _ => parts

/-- Whether a name has to be read as a number, because its last part is one. -/
def endsInNumber (text : Text) : Bool :=
  match (split text).getLast? with
  | some last => (!last.isEmpty && last.all Char.isDigit) || (part? last).isSome
  | none => false

def ofText? (text : Text) : Option Ipv4 := do
  let parts ← (split text).mapM part?
  let last ← parts.getLast?
  let bytes := parts.dropLast
  if 4 < parts.length || bytes.any (fun n => 255 < n) || Nat.pow 256 (4 - bytes.length) ≤ last then none
  else
    let high := bytes.zipIdx.map fun byte => byte.1 * Nat.pow 256 (3 - byte.2)
    return ⟨UInt32.ofNat (total id high + last)⟩

def render (host : Ipv4) : Text :=
  let n := host.value.toNat
  List.intercalate ['.'] ([n / 0x1000000, n / 0x10000 % 256, n / 256 % 256, n % 256].map fun byte =>
    (toString byte).toList)

end Ipv4

/-- A host of the sixth version of the protocol: eight numbers of 16 bits. -/
structure Ipv6 where
  pieces : List Nat
  deriving DecidableEq, Repr

namespace Ipv6

def piece? (digits : Text) : Option Nat :=
  if digits.isEmpty || 4 < digits.length then none else numberIn? 16 digits

/-- A byte in base ten, without needless zeros. -/
def byte? (digits : Text) : Option Nat :=
  match digits with
  | ['0'] => some 0
  | '0' :: _ | [] => none
  | _ => (numberIn? 10 digits).filter fun n => n < 256

/-- Two numbers, written as a host of the fourth version. -/
def embedded? (text : Text) : Option (List Nat) := do
  match ← (Text.parts (fun c => c == '.') text).mapM byte? with
  | [a, b, c, d] => return [a * 256 + b, c * 256 + d]
  | _ => none

/-- The numbers between colons; the last one may be written as a host of the fourth version. -/
def pieces? : List Text → Option (List Nat)
  | [] => some []
  | [last] => if last.contains '.' then embedded? last else (piece? last).map fun n => [n]
  | first :: rest => do return (← piece? first) :: (← pieces? rest)

def run? (text : Text) : Option (List Nat) :=
  if text.isEmpty then some [] else pieces? (Text.parts (fun c => c == ':') text)

def cutDoubleColon? : Text → Option (Text × Text)
  | ':' :: ':' :: rest => some ([], rest)
  | c :: rest => (cutDoubleColon? rest).map fun cut => (c :: cut.1, cut.2)
  | [] => none

/-- Reads a host. Two colons in a row stand for the zeros that are left out, at least one. -/
def ofText? (text : Text) : Option Ipv6 :=
  match cutDoubleColon? text with
  | none => do
      let pieces ← run? text
      if pieces.length = 8 then some ⟨pieces⟩ else none
  | some (before, after) => do
      if before.contains '.' then none
      else
        let front ← run? before
        let back ← run? after
        if front.length + back.length ≤ 7 then
          some ⟨front ++ List.replicate (8 - front.length - back.length) 0 ++ back⟩
        else none

def zeros (pieces : List Nat) : Nat :=
  (pieces.takeWhile fun n => n == 0).length

/-- The start and the length of the longest run of zeros, the first one of several. -/
def longestZeros : List Nat → Nat × Nat
  | [] => (0, 0)
  | n :: rest =>
      let later := longestZeros rest
      let here := zeros (n :: rest)
      if later.2 ≤ here then (0, here) else (later.1 + 1, later.2)

/-- Numbers in base 16 with colons between them. -/
def renderRun (pieces : List Nat) : Text :=
  List.intercalate [':'] (pieces.map fun n => Nat.toDigits 16 n)

/-- The host with its longest run of zeros left out, unless that is a single one. -/
def render (host : Ipv6) : Text :=
  let (start, length) := longestZeros host.pieces
  if length < 2 then renderRun host.pieces
  else
    renderRun (host.pieces.take start) ++ [':', ':'] ++ renderRun (host.pieces.drop (start + length))

end Ipv6

end Dockerfile
