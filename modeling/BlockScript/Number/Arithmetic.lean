/-
BlockScript/Number/Arithmetic.lean

Division, remainder and power.  None of them fails: a zero divisor, an
overflow or a power without a real value gives an infinity or the NaN.

The remainder is exact.  Both operands are brought to the smaller of their
two binary exponents, where they are integers, and the remainder of these is
again a float whatever the distance of the exponents.
-/
import BlockScript.Number.Parts
import BlockScript.Number.Rounding

namespace BlockScript

/-- The NaN. -/
def notANumber : Float :=
  Float.ofBits 0x7ff8000000000000

/-- Quotient; over a zero it is the infinity with the product of the signs,
or the NaN when the dividend is a zero or the NaN. -/
def divide (a b : Float) : Float :=
  if b == 0.0 then
    if a == 0.0 || a.isNaN then notANumber
    else infinity (signBit a != signBit b)
  else a / b

/-- The magnitudes of two finite numbers as integer multiples of one power
of two, and the exponent of that power. -/
def Parts.align (p q : Parts) : Nat × Nat × Int :=
  let unit := min p.exponent q.exponent
  (p.mantissa * Nat.pow 2 (p.exponent - unit).toNat,
    q.mantissa * Nat.pow 2 (q.exponent - unit).toNat, unit)

/-- Remainder of the division truncated toward zero; it has the sign of the
dividend. -/
def Parts.remainder (p q : Parts) : Float :=
  let (m, n, unit) := p.align q
  nearest p.negative (m % n * Nat.pow 2 unit.toNat) (Nat.pow 2 (-unit).toNat)

/-- Remainder of numbers.  An infinite divisor leaves the dividend as it is. -/
def modulo (a b : Float) : Float :=
  if a.isNaN || b.isNaN || a.isInf || b == 0.0 then notANumber
  else if b.isInf then a
  else
    match Parts.ofFloat? a, Parts.ofFloat? b with
    | some p, some q => p.remainder q
    | _, _ => notANumber

/-- Whether a number is an odd integer: its floor is the number itself, and
two leaves a remainder. -/
def isOddInteger (x : Float) : Bool :=
  match Parts.ofFloat? x with
  | some p => p.equalsInt p.floor && modulo x 2.0 != 0.0
  | none => false

/-- What is reported in place of a power of finite numbers. -/
inductive PowerError where
  | overflow
  | undefined
deriving Repr, DecidableEq

/-- The power of two numbers with its errors, where `pow` computes the power.
It overflows if a number other than zero has an infinite power, and is
undefined for a zero with a negative exponent and where there is no real
power. -/
def reportedPower (pow : Float → Float → Float) (a b : Float) : Except PowerError Float :=
  if !(a.isFinite && b.isFinite) then .ok (pow a b)
  else if a == 0.0 then
    if b < 0.0 then .error .undefined else .ok (pow a b)
  else if (pow a b).isInf then .error .overflow
  else if (pow a b).isNaN then .error .undefined
  else .ok (pow a b)

/-- The number in place of an error.  An infinity is negative when a negative
base is raised to an odd integer, and `-0.0` counts as negative. -/
def PowerError.result (a b : Float) : PowerError → Float
  | overflow => infinity (a < 0.0 && isOddInteger b)
  | undefined => if a == 0.0 then infinity (signBit a && isOddInteger b) else notANumber

/-- Power, where `pow` computes it.  The NaN as exponent or base gives the NaN
except that every base to the zero is one; `±1` to an infinite exponent is the
NaN. -/
def powerBy (pow : Float → Float → Float) (a b : Float) : Float :=
  if b.isNaN then notANumber
  else if b == 0.0 then 1.0
  else if a.isNaN then notANumber
  else if a.abs == 1.0 && b.isInf then notANumber
  else
    match reportedPower pow a b with
    | .ok x => x
    | .error error => error.result a b

/-- Power of numbers. -/
def power (a b : Float) : Float :=
  powerBy Float.pow a b

end BlockScript
