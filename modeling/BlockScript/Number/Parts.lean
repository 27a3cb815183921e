/-
BlockScript/Number/Parts.lean

Numbers of the language are 64-bit floats.  Every exact computation on them
starts from the sign, mantissa and exponent that the bit pattern spells:

    x  =  (-1)^negative · mantissa · 2^exponent

with `mantissa < 2^53` and `-1074 ≤ exponent ≤ 971`.  Infinities and the NaN
have no parts.
-/

namespace BlockScript

/-- Sign, mantissa and binary exponent of a finite number. -/
structure Parts where
  negative : Bool
  mantissa : Nat
  exponent : Int
deriving Repr, DecidableEq

/-- The sign bit; set for `-0.0` too. -/
def signBit (x : Float) : Bool :=
  Nat.pow 2 63 ≤ x.toBits.toNat

/-- The eleven exponent bits. -/
def exponentField (x : Float) : Nat :=
  x.toBits.toNat / Nat.pow 2 52 % Nat.pow 2 11

/-- The fifty-two fraction bits. -/
def fractionField (x : Float) : Nat :=
  x.toBits.toNat % Nat.pow 2 52

namespace Parts

/-- The parts of a finite number, read off its bits.  An exponent field of
zero means a zero or a subnormal, which lack the hidden leading bit. -/
def ofFloat? (x : Float) : Option Parts :=
  let field := exponentField x
  if field = 2047 then none
  else if field = 0 then some ⟨signBit x, fractionField x, -1074⟩
  else some ⟨signBit x, Nat.pow 2 52 + fractionField x, field - 1075⟩

/-- Numerator of the magnitude `mantissa · 2^exponent` as a fraction of
natural numbers. -/
def numerator (p : Parts) : Nat :=
  p.mantissa * Nat.pow 2 p.exponent.toNat

/-- Denominator of the magnitude; a power of two. -/
def denominator (p : Parts) : Nat :=
  Nat.pow 2 (-p.exponent).toNat

/-- The integer part, rounded toward zero. -/
def truncate (p : Parts) : Int :=
  let magnitude : Nat := p.numerator / p.denominator
  if p.negative then -magnitude else magnitude

/-- The numerator with the sign of the number. -/
def signedNumerator (p : Parts) : Int :=
  if p.negative then -p.numerator else p.numerator

/-- The greatest integer that is not above the number. -/
def floor (p : Parts) : Int :=
  p.signedNumerator / p.denominator

/-- Whether the exact value is the integer `n`. -/
def equalsInt (p : Parts) (n : Int) : Bool :=
  p.signedNumerator = n * p.denominator

end Parts

end BlockScript
