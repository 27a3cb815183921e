/-
BlockScript/Syntax/Form.lean

The forms of the language.  A node whose kind names a form has a meaning;
any other kind is unhandled.  Four forms need a fixed number of children.

Which children of a node are evaluated, and in which order, is a matter of
the tree alone: see `Node.operands`.
-/
import BlockScript.Syntax.Node

namespace BlockScript

/-- The node kinds that the evaluator knows. -/
inductive Form where
  | block
  | statement
  | unary
  | binary
  | assignment
  | member
  | number
  | string
  | boolean
  | identifier
  | comment
deriving Repr, DecidableEq, Inhabited

namespace Form

/-- The kind of the nodes of a form. -/
def kind : Form → String
  | block => "block"
  | statement => "statement"
  | unary => "unary_expression"
  | binary => "binary_expression"
  | assignment => "assignment_expression"
  | member => "member_expression"
  | number => "number"
  | string => "string"
  | boolean => "boolean"
  | identifier => "identifier"
  | comment => "comment"

/-- Every form, once. -/
def all : List Form :=
  [block, statement, unary, binary, assignment, member, number, string, boolean, identifier,
   comment]

/-- The form that a kind names. -/
def ofKind? (kind : String) : Option Form :=
  all.find? (·.kind == kind)

/-- Number of children a form needs, and the words for them. -/
def arity? : Form → Option (Nat × String)
  | unary => some (2, "an operator and an operand")
  | binary => some (3, "lhs, operator and rhs")
  | assignment => some (3, "target, operator and value")
  | member => some (3, "object, '.' and name")
  | _ => none

end Form

namespace Node

/-- The form of a node. -/
def form? (n : Node) : Option Form :=
  Form.ofKind? n.kind

/-- The children that are evaluated, in order: the statements of a block, the
first named child of a statement, and the operands of an expression with the
right number of children. -/
def operands (n : Node) : List Node :=
  match n.form?, n.children with
  | some .block, children => children.filter (·.kind == "statement")
  | some .statement, _ => n.namedChildren.take 1
  | some .unary, [_, operand] => [operand]
  | some .binary, [lhs, _, rhs] => [lhs, rhs]
  | some .assignment, [_, _, value] => [value]
  | some .member, [object, _, _] => [object]
  | _, _ => []

theorem operands_sublist (n : Node) : n.operands.Sublist n.children := by
  unfold operands
  split
  · exact List.filter_sublist
  · exact (List.take_sublist _ _).trans List.filter_sublist
  all_goals simp_all

theorem sizeOf_le_of_sublist {ns ms : List Node} (h : ns.Sublist ms) : sizeOf ns ≤ sizeOf ms := by
  induction h with
  | slnil => exact Nat.le_refl _
  | cons _ _ ih => simp only [List.cons.sizeOf_spec]; omega
  | cons_cons _ _ ih => simp only [List.cons.sizeOf_spec]; omega

/-- The evaluated children are smaller than their node. -/
theorem sizeOf_operands_lt (n : Node) : sizeOf n.operands < sizeOf n := by
  have h := sizeOf_le_of_sublist n.operands_sublist
  cases n
  simp only [Node.mk.sizeOf_spec] at *
  omega

end Node

end BlockScript
