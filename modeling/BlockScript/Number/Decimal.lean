/-
BlockScript/Number/Decimal.lean

Decimal numbers `digits · 10^exponent` between texts and floats: `toFloat`
rounds one to the nearest float, ties to even, and `layout` writes one
positionally or with an exponent.
-/
import BlockScript.Number.Rounding

namespace BlockScript

/-- The number `digits · 10^exponent`. -/
structure Decimal where
  digits : Nat
  exponent : Int
deriving Repr, DecidableEq

namespace Decimal

/-- The float nearest to `±digits · 10^exponent`.  Exponents far outside the
range of floats are settled without computing the power. -/
def toFloat (negative : Bool) (d : Decimal) : Float :=
  if d.digits = 0 then nearest negative 0 1
  else if 400 < d.exponent then infinity negative
  else if d.exponent + d.digits.log2 < -400 then nearest negative 0 1
  else nearest negative (d.digits * Nat.pow 10 d.exponent.toNat) (Nat.pow 10 (-d.exponent).toNat)

/-- The same number with no zero at the end of its digits. -/
def trim (d : Decimal) : Decimal :=
  if d.digits = 0 then ⟨0, 0⟩
  else if d.digits % 10 = 0 then trim ⟨d.digits / 10, d.exponent + 1⟩
  else d
termination_by d.digits
decreasing_by omega

/-- Exponent of the leading digit. -/
def leading (d : Decimal) : Int :=
  d.exponent + (Nat.toDigits 10 d.digits).length - 1

/-- Digits around a decimal point, with zeros filled in on either side. -/
def positional (d : Decimal) : List Char :=
  let digits := Nat.toDigits 10 d.digits
  if 0 ≤ d.exponent then digits ++ List.replicate d.exponent.toNat '0' ++ ['.', '0']
  else if 0 ≤ d.leading then
    let whole := (d.leading + 1).toNat
    digits.take whole ++ '.' :: digits.drop whole
  else '0' :: '.' :: List.replicate (-d.leading - 1).toNat '0' ++ digits

/-- Leading digit, further digits after a point if there are any, and a
signed exponent of at least two digits. -/
def scientific (d : Decimal) : List Char :=
  let digits := Nat.toDigits 10 d.digits
  let fraction := if digits.length = 1 then [] else '.' :: digits.drop 1
  let power := Nat.toDigits 10 d.leading.natAbs
  let padding := List.replicate (2 - power.length) '0'
  digits.take 1 ++ fraction ++ ['e', if d.leading < 0 then '-' else '+'] ++ padding ++ power

/-- Positional for leading exponents from -4 to 15, scientific otherwise. -/
def layout (d : Decimal) : List Char :=
  if -4 ≤ d.leading && d.leading < 16 then d.positional else d.scientific

end Decimal

end BlockScript
