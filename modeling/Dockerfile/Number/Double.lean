/-!
# Double-precision numbers from decimals

The double nearest to a quotient of two natural numbers, a tie going to the one with the even last
bit. The computation is exact up to the one rounding at its end.
-/

namespace Dockerfile

namespace Double

/-- The natural number nearest to a quotient; of two, the even one. -/
def roundedQuotient (num den : Nat) : Nat :=
  let quotient := num / den
  let remainder := num % den
  if den < 2 * remainder ∨ (2 * remainder = den ∧ quotient % 2 = 1) then quotient + 1
  else quotient

def floorLog (num den : Nat) : Int :=
  let k : Int := num.log2 - den.log2
  let reached := if 0 ≤ k then den <<< k.toNat ≤ num else den ≤ num <<< (-k).toNat
  if reached then k else k - 1

def infinityBits : Nat :=
  0x7FF <<< 52

/-- The bits of the double nearest to a quotient. The last place of a double in `[2 ^ k, 2 ^ (k + 1))`
is worth `2 ^ (k - 52)`, and never less than `2 ^ (-1074)`. -/
def bitsOfRatio (num den : Nat) : Nat :=
  if num = 0 then 0
  else
    let place : Int := max (floorLog num den - 52) (-1074)
    let mantissa := if 0 ≤ place then roundedQuotient num (den <<< place.toNat)
      else roundedQuotient (num <<< (-place).toNat) den
    min (((place + 1074).toNat <<< 52) + mantissa) infinityBits

def ofRatio (num den : Nat) : Float :=
  Float.ofBits (UInt64.ofNat (bitsOfRatio num den))

/-- One is one, and a third is rounded down. -/
example : bitsOfRatio 1 1 = 0x3FF0000000000000 ∧ bitsOfRatio 1 3 = 0x3FD5555555555555 := by decide

end Double

end Dockerfile
