/-
BlockScript/Number/Literal.lean

Number literals.  A literal is, after stripping, either an integer with a
base prefix or a decimal:

    0x hex digits | 0o octal digits | 0b binary digits
    sign? (digits+ point? digits* | point digits+) (e sign? digits+)?

The letters may be of either case.  Prefixed integers use ASCII digits and
carry no sign; decimals may use the decimal digits of any script.
-/
import BlockScript.Number.Decimal
import BlockScript.Text.Blank
import BlockScript.Text.Digit

namespace BlockScript

/-- What a literal denotes before rounding. -/
inductive Literal where
  | integer (n : Nat)
  | decimal (negative : Bool) (d : Decimal)
deriving Repr, DecidableEq

namespace Literal

/-- A nonempty row of digits of one base. -/
def basedInteger? (base : Nat) (cs : List Char) : Option Nat :=
  if cs ≠ [] && cs.all fun c => (basedDigit? base c).isSome then some (basedValue base cs) else none

/-- An integer behind a base prefix. -/
def prefixed? : List Char → Option Nat
  | '0' :: mark :: cs =>
    if mark = 'x' || mark = 'X' then basedInteger? 16 cs
    else if mark = 'o' || mark = 'O' then basedInteger? 8 cs
    else if mark = 'b' || mark = 'B' then basedInteger? 2 cs
    else none
  | _ => none

/-- Splits off a sign, which is negative for a minus. -/
def splitSign : List Char → Bool × List Char
  | '-' :: cs => (true, cs)
  | '+' :: cs => (false, cs)
  | cs => (false, cs)

/-- The exponent behind the digits of a decimal; nothing is zero. -/
def exponentPart? : List Char → Option Int
  | [] => some 0
  | mark :: cs =>
    let (negative, digits) := splitSign cs
    if (mark = 'e' || mark = 'E') && digits ≠ [] && digits.all isDecimalDigit then
      some (if negative then -(decimalValue digits : Int) else decimalValue digits)
    else none

/-- Splits off the fraction digits behind a point, if there is one. -/
def splitFraction : List Char → List Char × List Char
  | '.' :: cs => cs.span isDecimalDigit
  | cs => ([], cs)

/-- A decimal. -/
def decimal? (cs : List Char) : Option Literal :=
  let (negative, unsigned) := splitSign cs
  let (whole, rest) := unsigned.span isDecimalDigit
  let (fraction, tail) := splitFraction rest
  if whole = [] && fraction = [] then none
  else
    (exponentPart? tail).map fun e =>
      .decimal negative ⟨decimalValue (whole ++ fraction), e - fraction.length⟩

/-- The literal that a text spells. -/
def read? (s : String) : Option Literal :=
  let cs := (strip s).toList
  match prefixed? cs with
  | some n => some (.integer n)
  | none => decimal? cs

/-- The nearest float.  A decimal beyond the largest float is infinite; an
integer beyond it has no value. -/
def value? : Literal → Option Float
  | .integer n => ofInt? n
  | .decimal negative d => some (d.toFloat negative)

end Literal

end BlockScript
