/-
BlockScript/Evaluation/Operator.lean

The operators on values.  Operands are values already; there is no
short-circuit.  An operator either gives a value or refuses the kinds of its
operands.
-/
import BlockScript.Failure
import BlockScript.Number.Arithmetic
import BlockScript.Number.Word

namespace BlockScript

/-! ### Unary operators -/

/-- The operators with one operand. -/
inductive UnaryOp where
  | not
  | complement
  | negate
deriving Repr, DecidableEq

namespace UnaryOp

/-- The symbol that names an operator, in source text and in messages. -/
def symbol : UnaryOp → String
  | not => "!"
  | complement => "~"
  | negate => "-"

/-- The operator that a text names. -/
def ofSymbol? (s : String) : Option UnaryOp :=
  [not, complement, negate].find? (·.symbol == s)

/-- Applies an operator.  Negation of truth values and of numbers are two operators; neither
takes the operands of the other. -/
def apply : UnaryOp → Value → Except Fault Value
  | not, .boolean b => .ok (.boolean !b)
  | complement, .number x => .ok (.number (bitNot x))
  | negate, .number x => .ok (.number (-x))
  | op, v => .error (.mismatch op.symbol [v.kind])

end UnaryOp

/-! ### Binary operators -/

/-- The operators with two operands. -/
inductive BinaryOp where
  | and
  | or
  | shiftRight
  | shiftRightZero
  | shiftLeft
  | bitAnd
  | bitXor
  | bitOr
  | add
  | subtract
  | multiply
  | divide
  | modulo
  | power
  | less
  | lessEqual
  | greater
  | greaterEqual
  | equal
  | notEqual
  | coalesce
deriving Repr, DecidableEq

/-- Strict order of two values of one kind.  Strings compare by code points
and false precedes true; what is not a scalar has no order. -/
def Value.less : Value → Value → Bool
  | .number x, .number y => x < y
  | .string s, .string t => s < t
  | .boolean b, .boolean c => !b && c
  | _, _ => false

namespace BinaryOp

/-- The symbol that names an operator, in source text and in messages. -/
def symbol : BinaryOp → String
  | and => "&&"
  | or => "||"
  | shiftRight => ">>"
  | shiftRightZero => ">>>"
  | shiftLeft => "<<"
  | bitAnd => "&"
  | bitXor => "^"
  | bitOr => "|"
  | add => "+"
  | subtract => "-"
  | multiply => "*"
  | divide => "/"
  | modulo => "%"
  | power => "**"
  | less => "<"
  | lessEqual => "<="
  | greater => ">"
  | greaterEqual => ">="
  | equal => "=="
  | notEqual => "!="
  | coalesce => "??"

/-- Every operator, once. -/
def all : List BinaryOp :=
  [and, or, shiftRight, shiftRightZero, shiftLeft, bitAnd, bitXor, bitOr, add, subtract, multiply,
   divide, modulo, power, less, lessEqual, greater, greaterEqual, equal, notEqual, coalesce]

/-- The operator that a text names. -/
def ofSymbol? (s : String) : Option BinaryOp :=
  all.find? (·.symbol == s)

/-- Refuses the kinds of two operands. -/
def refuse (op : BinaryOp) (a b : Value) : Except Fault Value :=
  .error (.mismatch op.symbol [a.kind, b.kind])

/-- Applies a function of two numbers. -/
def onNumbers (op : BinaryOp) (f : Float → Float → Float) : Value → Value → Except Fault Value
  | .number x, .number y => .ok (.number (f x y))
  | a, b => op.refuse a b

/-- Applies a function of two truth values. -/
def onBooleans (op : BinaryOp) (f : Bool → Bool → Bool) : Value → Value → Except Fault Value
  | .boolean b, .boolean c => .ok (.boolean (f b c))
  | a, b => op.refuse a b

/-- Decides an order between two values of one kind. -/
def onOrdered (op : BinaryOp) (test : Value → Value → Bool) (a b : Value) : Except Fault Value :=
  if a.kind = b.kind then .ok (.boolean (test a b)) else op.refuse a b

/-- Whether the left value precedes the right one. -/
def isLess : Value → Value → Except Fault Value :=
  onOrdered less Value.less

/-- Whether the left value comes after the right one. -/
def isGreater : Value → Value → Except Fault Value :=
  onOrdered greater fun a b => b.less a

/-- Whether the values are equal.  No kinds are refused. -/
def isEqual (a b : Value) : Except Fault Value :=
  .ok (.boolean (a.equals b))

/-- Whether a strict comparison holds or the values are equal.  What the strict
comparison refuses is refused under its symbol. -/
def orEqual (strict : Value → Value → Except Fault Value) (a b : Value) : Except Fault Value := do
  onBooleans or (· || ·) (← strict a b) (← isEqual a b)

/-- Sum of numbers, concatenation of strings. -/
def sum : Value → Value → Except Fault Value
  | .number x, .number y => .ok (.number (x + y))
  | .string s, .string t => .ok (.string (s ++ t))
  | a, b => add.refuse a b

/-- The right value in place of void or false. -/
def orElse : Value → Value → Value
  | .void, b => b
  | .boolean false, b => b
  | a, _ => a

/-- Applies an operator.  The inexact comparisons and inequality are composed of
other operators. -/
def apply (op : BinaryOp) (a b : Value) : Except Fault Value :=
  match op with
  | and => onBooleans and (· && ·) a b
  | or => onBooleans or (· || ·) a b
  | shiftRight => onNumbers shiftRight BlockScript.shiftRight a b
  | shiftRightZero => onNumbers shiftRightZero BlockScript.shiftRightZero a b
  | shiftLeft => onNumbers shiftLeft BlockScript.shiftLeft a b
  | bitAnd => onNumbers bitAnd BlockScript.bitAnd a b
  | bitXor => onNumbers bitXor BlockScript.bitXor a b
  | bitOr => onNumbers bitOr BlockScript.bitOr a b
  | add => sum a b
  | subtract => onNumbers subtract (· - ·) a b
  | multiply => onNumbers multiply (· * ·) a b
  | divide => onNumbers divide BlockScript.divide a b
  | modulo => onNumbers modulo BlockScript.modulo a b
  | power => onNumbers power BlockScript.power a b
  | less => isLess a b
  | greater => isGreater a b
  | lessEqual => orEqual isLess a b
  | greaterEqual => orEqual isGreater a b
  | equal => isEqual a b
  | notEqual => isEqual a b >>= UnaryOp.not.apply
  | coalesce => .ok (orElse a b)

/-! ### The composed operators -/

/-- An order that lets equality in is decided on the same operands as the strict
order, and refuses the others under the same symbol. -/
theorem orEqual_onOrdered (op : BinaryOp) (test : Value → Value → Bool) (a b : Value) :
    orEqual (onOrdered op test) a b = onOrdered op (fun a b => test a b || a.equals b) a b := by
  unfold orEqual onOrdered refuse
  split <;> rfl

theorem apply_lessEqual (a b : Value) :
    lessEqual.apply a b = onOrdered less (fun a b => a.less b || a.equals b) a b :=
  orEqual_onOrdered less Value.less a b

theorem apply_greaterEqual (a b : Value) :
    greaterEqual.apply a b = onOrdered greater (fun a b => b.less a || a.equals b) a b :=
  orEqual_onOrdered greater (fun a b => b.less a) a b

theorem apply_notEqual (a b : Value) : notEqual.apply a b = .ok (.boolean !a.equals b) :=
  rfl

end BinaryOp

end BlockScript
