/-
BlockScript/Number/Word.lean

The bitwise operators.  An operand is cut to its integer part, which is read
modulo `2^32`: signed, except by the zero-filling shift.  The operators act on
these integers in two's complement, where the sign bit goes on without end.
Only a left shift leaves the range of 32 bits, and its result is read modulo
`2^32` once more.  Shift counts use the low five bits.
-/
import BlockScript.Number.Parts
import BlockScript.Number.Rounding

namespace BlockScript

/-! ### 32-bit readings -/

/-- The integer part of a number, rounded toward zero.  Infinities and the NaN
count as zero. -/
def integerPart (x : Float) : Int :=
  match Parts.ofFloat? x with
  | some p => p.truncate
  | none => 0

/-- Unsigned reading of an integer modulo `2^32`. -/
def wrapUnsigned (n : Int) : Nat :=
  (n % 0x100000000).toNat

/-- Signed reading of an integer modulo `2^32`. -/
def wrapSigned (n : Int) : Int :=
  let unsigned : Int := wrapUnsigned n
  if 0x80000000 ≤ unsigned then unsigned - 0x100000000 else unsigned

/-- Unsigned reading of `x`. -/
def toUnsigned (x : Float) : Nat :=
  wrapUnsigned (integerPart x)

/-- Signed reading of `x`. -/
def toSigned (x : Float) : Int :=
  wrapSigned (integerPart x)

/-- Shift distance: the low five bits. -/
def shiftCount (x : Float) : Nat :=
  toUnsigned x &&& 0x1f

/-! ### Integers bit by bit -/

/-- The bits of an integer, or of its complement if it is negative: those that
differ from the sign bit are set. -/
def signedBits : Int → Nat
  | .ofNat n => n
  | .negSucc n => n

/-- Combines two integers bit by bit.  The sign bits give the sign bit of the
result. -/
def bitByBit (f : Bool → Bool → Bool) (m n : Int) : Int :=
  let sign := f (m < 0) (n < 0)
  let bits := Nat.bitwise (fun b c => f (b ^^ m < 0) (c ^^ n < 0) ^^ sign)
    (signedBits m) (signedBits n)
  if sign then .negSucc bits else .ofNat bits

/-! ### The operators -/

/-- Complement of the signed reading. -/
def bitNot (a : Float) : Float :=
  ofInt (~~~toSigned a)

/-- The bits that both signed readings have. -/
def bitAnd (a b : Float) : Float :=
  ofInt (bitByBit and (toSigned a) (toSigned b))

/-- The bits that at least one signed reading has. -/
def bitOr (a b : Float) : Float :=
  ofInt (bitByBit or (toSigned a) (toSigned b))

/-- The bits in which the signed readings differ. -/
def bitXor (a b : Float) : Float :=
  ofInt (bitByBit xor (toSigned a) (toSigned b))

/-- Left shift.  The result may be too large for 32 bits, so it is read modulo `2^32` again.
-/
def shiftLeft (a b : Float) : Float :=
  ofInt (wrapSigned (toSigned a <<< shiftCount b))

/-- Right shift that copies the sign. -/
def shiftRight (a b : Float) : Float :=
  ofInt (toSigned a >>> shiftCount b)

/-- Right shift that fills with zeros. -/
def shiftRightZero (a b : Float) : Float :=
  ofInt (toUnsigned a >>> shiftCount b : Nat)

end BlockScript
