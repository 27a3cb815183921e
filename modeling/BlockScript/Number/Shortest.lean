/-
BlockScript/Number/Shortest.lean

The text of a number: the fewest digits that read back as the same number,
and of those the nearest to it.  Of two equally near ones the even one is
taken.

Design.  For one digit, two digits and so on, the two neighbours of the
number on that decimal grid are read back; the first grid with a hit wins.
Seventeen digits always suffice.  The exact expansion stands behind the
search, so whatever is returned reads back by construction.
-/
import BlockScript.Number.Decimal
import BlockScript.Number.Parts

namespace BlockScript

namespace Parts

/-- Exponent of the leading decimal digit of a nonzero magnitude, found by
counting the digits of its integer part after a shift of the point. -/
def decimalExponent (p : Parts) : Int :=
  (Nat.toDigits 10 (p.numerator * Nat.pow 10 340 / p.denominator)).length - 341

/-- The magnitude with all its decimal digits. -/
def exactDecimal (p : Parts) : Decimal :=
  if 0 ≤ p.exponent then ⟨p.numerator, 0⟩
  else ⟨p.mantissa * Nat.pow 5 (-p.exponent).toNat, p.exponent⟩

/-- Whether a decimal reads back as this magnitude. -/
def readsBack (p : Parts) (d : Decimal) : Bool :=
  (d.toFloat false).toBits == (nearest false p.numerator p.denominator).toBits

/-- A decimal of `count` digits from the exponent `leading` down that reads
back, the nearer of two.  A tie goes to the even one. -/
def onGrid? (p : Parts) (leading : Int) (count : Nat) : Option Decimal :=
  let unit := leading - count + 1
  let num := p.numerator * Nat.pow 10 (-unit).toNat
  let den := p.denominator * Nat.pow 10 unit.toNat
  let below : Decimal := ⟨num / den, unit⟩
  let above : Decimal := ⟨num / den + 1, unit⟩
  let twice := 2 * (num % den)
  let nearerBelow := twice < den || (twice == den && below.digits % 2 == 0)
  let candidates := if nearerBelow then [below, above] else [above, below]
  candidates.find? p.readsBack

/-- The shortest decimal that reads back as this magnitude. -/
def shortest (p : Parts) : Decimal :=
  let leading := p.decimalExponent
  (((List.range 17).findSome? fun i => p.onGrid? leading (i + 1)).getD p.exactDecimal).trim

end Parts

/-- How the numbers that no decimal denotes are spelled. -/
structure Spelling where
  infinite : String
  undefined : String

/-- Text of a number.  A zero keeps its sign. -/
def Spelling.write (spelling : Spelling) (x : Float) : String :=
  let sign := if signBit x then "-" else ""
  match Parts.ofFloat? x with
  | some p => sign ++ String.ofList (if p.mantissa = 0 then ['0', '.', '0'] else p.shortest.layout)
  | none => if x.isNaN then spelling.undefined else sign ++ spelling.infinite

/-- Spelling in trees, values and messages. -/
def Spelling.plain : Spelling := ⟨"inf", "nan"⟩

/-- Text of a number in trees, values and messages. -/
def numberText (x : Float) : String :=
  Spelling.plain.write x

end BlockScript
