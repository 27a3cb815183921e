/-
BlockScript/Syntax/Parsed.lean

The tree a parser hands over: the texts are bytes, and a node may have none.
`toNode?` decodes it and fails exactly when some text is not UTF-8; `ofNode`
is its converse.
-/
import BlockScript.Syntax.Node

namespace BlockScript

/-- A node as the parser delivers it. -/
structure ParsedNode where
  kind : String
  bytes : Option ByteArray := none
  children : List ParsedNode := []
  named : Bool := true
  missing : Bool := false
deriving Inhabited

namespace ParsedNode

/-- The text of a node; a node without bytes has the empty text. -/
def text? : Option ByteArray → Option String
  | none => some ""
  | some bytes => String.fromUTF8? bytes

mutual

/-- The tree with its texts decoded. -/
def toNode? : ParsedNode → Option Node
  | ⟨kind, bytes, children, named, missing⟩ => do
    let text ← text? bytes
    let children ← toNodes? children
    return { kind, text, children, named, missing }

/-- The trees with their texts decoded. -/
def toNodes? : List ParsedNode → Option (List Node)
  | [] => some []
  | n :: ns => do
    let n ← n.toNode?
    let ns ← toNodes? ns
    return n :: ns

end

mutual

/-- The tree with its texts encoded. -/
def ofNode : Node → ParsedNode
  | ⟨kind, text, children, named, missing⟩ =>
    { kind, bytes := some text.toUTF8, children := ofNodes children, named, missing }

/-- The trees with their texts encoded. -/
def ofNodes : List Node → List ParsedNode
  | [] => []
  | n :: ns => ofNode n :: ofNodes ns

end

end ParsedNode

end BlockScript
