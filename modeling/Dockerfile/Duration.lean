import Dockerfile.Number.Double
import Dockerfile.Text.Continuation

/-!
# Durations

A duration such as `1h30m` or `-1.5s` is an optional sign and then terms, each a decimal number and a
unit. A lone zero needs no unit. The first term that is wrong decides what is reported.
-/

namespace Dockerfile

namespace Duration

inductive Unit where
  | nanosecond
  | microsecond
  | millisecond
  | second
  | minute
  | hour
  deriving DecidableEq, Repr

namespace Unit

/-- Reads the name of a unit; the two letters mu are the same. -/
def ofText? (text : Text) : Option Unit :=
  match text with
  | ['n', 's'] => some nanosecond
  | ['u', 's'] => some microsecond
  | ['µ', 's'] => some microsecond
  | ['μ', 's'] => some microsecond
  | ['m', 's'] => some millisecond
  | ['s'] => some second
  | ['m'] => some minute
  | ['h'] => some hour
  | _ => none

def nanoseconds : Unit → Float
  | nanosecond => 1.0
  | microsecond => 1000.0
  | millisecond => 1000000.0
  | second => 1000000000.0
  | minute => 60000000000.0
  | hour => 3600000000000.0

end Unit

inductive Error where
  | invalid
  | missingUnit
  | unknownUnit (unit : Text)
  deriving DecidableEq, Repr

structure Term where
  number : Text
  unit : Unit
  deriving DecidableEq, Repr

/-- A digit or a point: what a number is written with. -/
def isNumeral (c : Char) : Bool :=
  c.isDigit || c == '.'

def isNumber (text : Text) : Bool :=
  text.any Char.isDigit && text.count '.' ≤ 1

def digitsValue (digits : Text) : Nat :=
  digits.foldl (fun n c => n * 10 + (c.toNat - '0'.toNat)) 0

def numberValue (number : Text) : Float :=
  let places := (number.dropWhile fun c => c != '.').tail.length
  Double.ofRatio (digitsValue (number.filter Char.isDigit)) (Nat.pow 10 places)

def terms : Text → Except Error (List Term)
  | [] => .ok []
  | c :: rest =>
      let number := (c :: rest).takeWhile isNumeral
      let afterNumber := (c :: rest).dropWhile isNumeral
      let unit := afterNumber.takeWhile fun d => !isNumeral d
      let afterUnit := afterNumber.dropWhile fun d => !isNumeral d
      if _hn : isNumber number = false then .error .invalid
      else if unit.isEmpty then .error .missingUnit
      else
        match Unit.ofText? unit with
        | none => .error (.unknownUnit unit)
        | some u => (terms afterUnit).map fun ts => ⟨number, u⟩ :: ts
termination_by text => text.length
decreasing_by
  have hc : isNumeral c = true := by
    cases h : isNumeral c with
    | true => rfl
    | false => simp [number, h, isNumber] at _hn
  have h1 : afterNumber = rest.dropWhile isNumeral := by simp [afterNumber, hc]
  have h2 := length_dropWhile_le (fun d => !isNumeral d) afterNumber
  have h3 := length_dropWhile_le isNumeral rest
  rw [← h1] at h3
  show (List.dropWhile (fun d => !isNumeral d) afterNumber).length < _
  simp only [List.length_cons]
  omega

def sum (ts : List Term) : Float :=
  ts.foldl (fun total t => total + numberValue t.number * t.unit.nanoseconds) 0.0

/-- Splits off the sign: whether it is a minus, and what follows. -/
def splitSign : Text → Bool × Text
  | '-' :: body => (true, body)
  | '+' :: body => (false, body)
  | body => (false, body)

def parse (text : Text) : Except Error Float :=
  let signed := splitSign text
  if signed.2 = ['0'] then .ok 0.0
  else if signed.2.isEmpty then .error .invalid
  else (terms signed.2).map fun ts => if signed.1 then -(sum ts) else sum ts

end Duration

end Dockerfile
