/-
BlockScript/Number/Rounding.lean

The float nearest to a fraction of natural numbers, ties to even.

Design.  The magnitude `num / den` is scaled by the power of two at which
its integer part has 53 bits (fewer only below the least normal number),
divided with `roundDiv`, and laid out as a bit pattern.  A mantissa that
rounds up to `2^53` needs no case of its own: the carry runs into the
exponent field and leaves the fraction zero.  Patterns past the largest
finite number are cut at the pattern of infinity.
-/

namespace BlockScript

/-- Quotient rounded to the nearest integer, a tie going to the even one. -/
def roundDiv (num den : Nat) : Nat :=
  let quotient := num / den
  let remainder := num % den
  if 2 * remainder < den then quotient
  else if den < 2 * remainder then quotient + 1
  else quotient + quotient % 2

/-- The greatest `e` with `2^e ≤ num / den`, for positive arguments. -/
def floorLog2 (num den : Nat) : Int :=
  let e : Int := (num.log2 : Int) - den.log2
  if num * Nat.pow 2 (-e).toNat < den * Nat.pow 2 e.toNat then e - 1 else e

/-- Exponent of the last mantissa bit of the float nearest to `num / den`. -/
def unitExponent (num den : Nat) : Int :=
  max (-1074) (floorLog2 num den - 52)

/-- Bit pattern of the positive infinity. -/
def infinityBits : Nat :=
  2047 * Nat.pow 2 52

/-- Bit pattern of the magnitude nearest to `num / den`. -/
def nearestBits (num den : Nat) : Nat :=
  if num = 0 then 0
  else
    let unit := unitExponent num den
    let mantissa := roundDiv (num * Nat.pow 2 (-unit).toNat) (den * Nat.pow 2 unit.toNat)
    let bits :=
      if mantissa < Nat.pow 2 52 then mantissa
      else (unit + 1075).toNat * Nat.pow 2 52 + (mantissa - Nat.pow 2 52)
    min bits infinityBits

/-- The float with a given sign and magnitude pattern. -/
def ofSignBits (negative : Bool) (bits : Nat) : Float :=
  Float.ofBits (UInt64.ofNat (if negative then Nat.pow 2 63 + bits else bits))

/-- The float nearest to `±num / den`; a zero keeps the sign. -/
def nearest (negative : Bool) (num den : Nat) : Float :=
  ofSignBits negative (nearestBits num den)

/-- The infinity of a given sign. -/
def infinity (negative : Bool) : Float :=
  ofSignBits negative infinityBits

/-- The float nearest to an integer, if it is finite. -/
def ofInt? (n : Int) : Option Float :=
  if nearestBits n.natAbs 1 < infinityBits then some (nearest (n < 0) n.natAbs 1) else none

/-- The float nearest to an integer. -/
def ofInt (n : Int) : Float :=
  nearest (n < 0) n.natAbs 1

end BlockScript
