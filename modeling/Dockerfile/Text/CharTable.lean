import Dockerfile.Text.Basic

/-!
# Tables of characters

A property of characters is written down as a text of entries between blanks, with code points in
base 16. An entry is one of these:

* `41-5A`, a run of code points; with `41-5A:61` the run also has an image, that of its first code
  point, and the images of the others follow it in order;
* `100/12E:101`, every second code point of a run;
* `C0:41+300,41+301`, one code point after the other with an image each, in which a plus sign joins
  code points.
-/

namespace Dockerfile

/-- Some code points in a row, or every second one of a row, and what a table says about them. -/
structure CharRun where
  first : Nat
  last : Nat
  step : Nat
  image : List Nat
  deriving DecidableEq, Repr

namespace CharRun

def holds (run : CharRun) (n : Nat) : Bool :=
  run.first ≤ n && n ≤ run.last && (n - run.first) % run.step == 0

def imageOf (run : CharRun) (n : Nat) : List Nat :=
  match run.image with
  | [first] => [first + (n - run.first)]
  | image => image

end CharRun

abbrev CharTable := List CharRun

namespace CharTable

def digitValue (c : Char) : Nat :=
  if c.isDigit then c.toNat - '0'.toNat else c.toNat - 'A'.toNat + 10

def number (digits : Text) : Nat :=
  digits.foldl (fun n c => 16 * n + digitValue c) 0

def images : Text → List (List Nat)
  | [] => []
  | _colon :: rest =>
      (Text.parts (fun c => c == ',') rest).map fun image =>
        (Text.parts (fun c => c == '+') image).map number

def entry (text : Text) : CharTable :=
  let cut := Text.cutAt (fun c => c == ':') text
  let places := Text.cutAt (fun c => c == '-' || c == '/') cut.1
  let first := number places.1
  match places.2, images cut.2 with
  | [], [] => [⟨first, first, 1, []⟩]
  | [], images => images.zipIdx.map fun image => ⟨first + image.2, first + image.2, 1, image.1⟩
  | mark :: last, images =>
      [⟨first, number last, if mark == '/' then 2 else 1, images.head?.getD []⟩]

def read (table : String) : CharTable :=
  (table.splitOn "\n").flatMap fun line =>
    (Text.parts isBlank line.toList).flatMap fun text => if text.isEmpty then [] else entry text

def find? (table : CharTable) (c : Char) : Option CharRun :=
  List.find? (fun run => run.holds c.toNat) table

def holds (table : CharTable) (c : Char) : Bool :=
  (table.find? c).isSome

def image? (table : CharTable) (c : Char) : Option Text :=
  (table.find? c).map fun run => (run.imageOf c.toNat).map Char.ofNat

/-- Every second code point from 100 to 104 has the one behind it as its image. -/
example : entry ['1', '0', '0', '/', '1', '0', '4', ':', '1', '0', '1'] = [⟨0x100, 0x104, 2, [0x101]⟩] := by
  decide

end CharTable

end Dockerfile
