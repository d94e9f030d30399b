import Dockerfile.Text.Basic

/-!
# Punycode

A text written with ASCII letters, digits and hyphens only: first its ASCII characters and a hyphen,
then the other ones in the order of their code points, each as the number of steps to it. A step goes
from one place of the text to the next and from the last place to the first one of the next code
point. The digits of these numbers have a weight that adapts to the numbers seen so far.
-/

namespace Dockerfile

namespace Punycode

/-- A digit in base 36: the letters count from zero, the decimal digits follow. -/
def digitChar (n : Nat) : Char :=
  if n < 26 then Char.ofNat ('a'.toNat + n) else Char.ofNat ('0'.toNat + (n - 26))

def digitValue? (c : Char) : Option Nat :=
  if c.isLower then some (c.toNat - 'a'.toNat)
  else if c.isUpper then some (c.toNat - 'A'.toNat)
  else if c.isDigit then some (c.toNat - '0'.toNat + 26)
  else none

/-- From which value on a digit at a place is not the last one of its number. -/
def threshold (place bias : Nat) : Nat :=
  if place ≤ bias then 1 else if bias + 26 ≤ place then 26 else place - bias

theorem threshold_pos (place bias : Nat) : 0 < threshold place bias := by
  unfold threshold
  split
  · omega
  · split <;> omega

/-- How often a number is divided until it is small, and what remains. -/
def scaleDown (bias n : Nat) : Nat × Nat :=
  if n ≤ 455 then (bias, n) else scaleDown (bias + 36) (n / 35)
termination_by n
decreasing_by exact Nat.div_lt_self (by omega) (by omega)

/-- The bias after a number, the `count`-th one. -/
def adapt (n count : Nat) (isFirst : Bool) : Nat :=
  let damped := if isFirst then n / 700 else n / 2
  let scaled := scaleDown 0 (damped + damped / count)
  scaled.1 + 36 * scaled.2 / (scaled.2 + 38)

def numberDigits (bias place n : Nat) : Text :=
  let t := threshold place bias
  if n < t then [digitChar n]
  else digitChar (t + (n - t) % (36 - t)) :: numberDigits bias (place + 36) ((n - t) / (36 - t))
termination_by n
decreasing_by
  have pos := threshold_pos place bias
  have small := Nat.div_le_self (n - threshold place bias) (36 - threshold place bias)
  omega

/-- What has been written: the digits, the steps since the last number, the bias, and how many
characters have been written. -/
structure Writer where
  digits : Text
  steps : Nat
  bias : Nat
  written : Nat

/-- Passes one place of the text on the way through the code point `n`. -/
def Writer.pass (basic n : Nat) (w : Writer) (c : Char) : Writer :=
  if c.toNat < n then { w with steps := w.steps + 1 }
  else if c.toNat = n then
    { digits := w.digits ++ numberDigits w.bias 36 w.steps
      steps := 0
      bias := adapt w.steps (w.written + 1) (w.written == basic)
      written := w.written + 1 }
  else w

/-- Writes the characters of the given code points, which are in order, from the code point `n`
on. -/
def writeFrom (text : Text) (basic : Nat) : Nat → Writer → List Nat → Text
  | _, w, [] => w.digits
  | n, w, next :: rest =>
      let reached := { w with steps := w.steps + (next - n) * (w.written + 1) }
      let passed := text.foldl (Writer.pass basic next) reached
      writeFrom text basic (next + 1) { passed with steps := passed.steps + 1 } rest

/-- Puts a number at its place among numbers in order, once. -/
def insertOnce (n : Nat) : List Nat → List Nat
  | [] => [n]
  | m :: rest => if n < m then n :: m :: rest else if n = m then m :: rest else m :: insertOnce n rest

def encode (text : Text) : Text :=
  let basic := text.filter fun c => c.toNat < 0x80
  let others := (text.filter fun c => 0x80 ≤ c.toNat).map Char.toNat
  let digits := writeFrom text basic.length 0x80 ⟨[], 0, 72, basic.length⟩
    (others.foldl (fun sorted n => insertOnce n sorted) [])
  (if basic.isEmpty then [] else basic ++ ['-']) ++ digits

def readNumber? (bias : Nat) (place weight sum : Nat) : Text → Option (Nat × Text)
  | [] => none
  | c :: rest => do
      let digit ← digitValue? c
      let t := threshold place bias
      let sum := sum + digit * weight
      if digit < t then return (sum, rest)
      else readNumber? bias (place + 36) (weight * (36 - t)) sum rest

theorem length_readNumber? {bias place weight sum n : Nat} {text rest : Text}
    (h : readNumber? bias place weight sum text = some (n, rest)) : rest.length < text.length := by
  induction text generalizing place weight sum with
  | nil => simp [readNumber?] at h
  | cons c others ih =>
      simp only [readNumber?, Option.bind_eq_bind, Option.bind_eq_some_iff] at h
      obtain ⟨digit, _, h⟩ := h
      split at h
      · cases h
        simp
      · have := ih h
        simp only [List.length_cons]
        omega

/-- Reads the characters that are written as numbers into a text, from a code point and a place on. A
code point that is none of a character ends the reading. -/
def readFrom (text : Text) (n place bias : Nat) (isFirst : Bool) (digits : Text) : Option Text :=
  if digits.isEmpty then some text
  else
    match _read : readNumber? bias 36 1 0 digits with
    | none => none
    | some (steps, rest) =>
        let count := text.length + 1
        let reached := place + steps
        let next := n + reached / count
        if next.isValidChar then
          readFrom (text.insertIdx (reached % count) (Char.ofNat next)) next (reached % count + 1)
            (adapt steps count isFirst) false rest
        else none
termination_by digits.length
decreasing_by exact length_readNumber? _read

/-- The text of which a text is the Punycode. What stands in front of the last hyphen is taken over,
and all of it is ASCII; a hyphen with nothing in front of it is out of place. -/
def decode? (code : Text) : Option Text :=
  let digits := (code.reverse.takeWhile fun c => c != '-').reverse
  let basic := code.take (code.length - digits.length - 1)
  if code.contains '-' && basic.isEmpty || basic.any (fun c => 0x80 ≤ c.toNat) then none
  else readFrom basic 0x80 0 72 true digits

end Punycode

end Dockerfile
