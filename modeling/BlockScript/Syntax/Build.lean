/-
BlockScript/Syntax/Build.lean

Trees without a parser.  Each constructor rebuilds the text of its node from
the texts of the children, so that rules which look at texts (operators,
member paths) see what they would see in source code.
-/
import BlockScript.Number.Shortest
import BlockScript.Syntax.Node
import BlockScript.Text.Blank

namespace BlockScript.Node

/-- An anonymous token: its kind is its text. -/
def token (text : String) : Node :=
  { kind := text, text := text, named := false }

/-! ### Leaves -/

/-- A number as it is written. -/
def literal (text : String) : Node :=
  { kind := "number", text := text }

/-- The literal of a number. -/
def number (x : Float) : Node :=
  literal (numberText x)

/-- The literal of an integer. -/
def integer (n : Int) : Node :=
  literal (toString n)

/-- A string as it is written, with its quotes. -/
def string (text : String) : Node :=
  { kind := "string", text := text }

/-- A truth value as it is written. -/
def boolean (text : String) : Node :=
  { kind := "boolean", text := text }

/-- The literal of a truth value. -/
def truth (b : Bool) : Node :=
  boolean (if b then "true" else "false")

/-- A name. -/
def identifier (name : String) : Node :=
  { kind := "identifier", text := name }

/-- A comment as it is written. -/
def comment (text : String) : Node :=
  { kind := "comment", text := text }

/-- A comment that says nothing. -/
def anyComment : Node :=
  comment "// comment"

/-! ### Expressions -/

/-- An operator in front of its operand. -/
def unary (op : String) (operand : Node) : Node :=
  { kind := "unary_expression", text := op ++ operand.text, children := [token op, operand] }

/-- An operator between its operands. -/
def binary (lhs : Node) (op : String) (rhs : Node) : Node :=
  { kind := "binary_expression"
    text := lhs.text ++ " " ++ op ++ " " ++ rhs.text
    children := [lhs, token op, rhs] }

/-- A member of an object. -/
def member (object property : Node) : Node :=
  { kind := "member_expression"
    text := object.text ++ "." ++ property.text
    children := [object, token ".", property] }

/-- The member expression, nested to the left, that a dotted text spells. -/
def memberPath (dotted : String) : Node :=
  match (pieces (· == '.') dotted.toList).map String.ofList with
  | [] => identifier dotted
  | head :: rest => rest.foldl (fun n name => member n (identifier name)) (identifier head)

/-- An assignment of a value to a target; the operator says whether it is constant. -/
def assign (target : Node) (op : String) (value : Node) : Node :=
  { kind := "assignment_expression"
    text := target.text ++ " " ++ op ++ " " ++ value.text
    children := [target, token op, value] }

/-! ### Statements and blocks -/

/-- The statement that is a semicolon only. -/
def emptyStatement : Node :=
  { kind := "statement", text := ";", children := [token ";"] }

/-- An expression with the semicolon that ends it. -/
def statement (expression : Node) : Node :=
  { kind := "statement", text := expression.text ++ ";", children := [expression, token ";"] }

/-- A bare expression becomes a statement; statements and comments stay. -/
def asStatement (item : Node) : Node :=
  if item.kind == "statement" || item.kind == "comment" then item else statement item

/-- A block in braces. -/
def block (items : List Node) : Node :=
  let body := items.map asStatement
  { kind := "block"
    text := " ".intercalate (["\x7b"] ++ body.map (·.text) ++ ["\x7d"])
    children := [token "\x7b"] ++ body ++ [token "\x7d"] }

/-- The root block of a whole source file, which has no braces. -/
def program (items : List Node) : Node :=
  let body := items.map asStatement
  { kind := "block", text := " ".intercalate (body.map (·.text)), children := body }

end BlockScript.Node
