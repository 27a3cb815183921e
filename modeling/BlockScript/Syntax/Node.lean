/-
BlockScript/Syntax/Node.lean

Syntax trees as a parser delivers them: a kind, the source text covered, the
children in order, and two flags.  Tokens such as operators and brackets are
anonymous (not `named`); a `missing` node is one the parser had to invent.

The symbolic expression of a tree shows its named nodes only.  Whether a tree
holds a syntax error is asked of all its nodes.
-/
import BlockScript.Text.Quoted

namespace BlockScript

/-- A node of a syntax tree. -/
structure Node where
  kind : String
  text : String := ""
  children : List Node := []
  named : Bool := true
  missing : Bool := false
deriving Repr, Inhabited

namespace Node

/-- The children that carry a grammar name. -/
def namedChildren (n : Node) : List Node :=
  n.children.filter (·.named)

/-! ### Syntax errors -/

/-- What marks this very node as a syntax error. -/
def isFaulty (n : Node) : Bool :=
  n.kind == "ERROR" || n.missing

mutual

/-- Whether the tree holds an error node or a missing node at any depth. -/
def hasError : Node → Bool
  | ⟨kind, _, children, _, missing⟩ => kind == "ERROR" || missing || anyError children

/-- Whether one of the trees holds a syntax error. -/
def anyError : List Node → Bool
  | [] => false
  | n :: ns => n.hasError || anyError ns

end

/-! ### Symbolic expressions -/

mutual

/-- Kinds of the named nodes in nested parentheses. -/
def sexp : Node → String
  | ⟨kind, _, children, _, missing⟩ =>
    "(" ++ (if missing then "MISSING " else "") ++ kind ++ sexps children ++ ")"

/-- The symbolic expressions of the named trees, each after a space. -/
def sexps : List Node → String
  | [] => ""
  | n :: ns => (if n.named then " " ++ n.sexp else "") ++ sexps ns

end

/-- Kind and text of a node, quoted. -/
def describe (n : Node) : String :=
  "Node(" ++ quoted n.kind ++ ", " ++ quoted n.text ++ ")"

end Node

end BlockScript
