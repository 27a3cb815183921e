/-
BlockScript/Scope/Display.lean

Values and scopes as one line of text.  A block shows its names only, since a
block may contain itself.
-/
import BlockScript.Number.Shortest
import BlockScript.Scope.Snapshot

namespace BlockScript.Heap

/-- Text of a value. -/
def display (h : Heap) : Value → String
  | .void => "Void"
  | .number x => "Number(value=" ++ numberText x ++ ")"
  | .string s => "String(value=" ++ quoted s ++ ")"
  | .boolean b => "Boolean(value=" ++ (if b then "True" else "False") ++ ")"
  | .block e => "Block\x7b" ++ ", ".intercalate (h.table e).names ++ "\x7d"
  | .function id =>
    let c := h.closures[id]?.getD default
    "Function((" ++ ", ".intercalate (paramTexts c.params) ++ ") -> " ++ quoted c.body.text ++ ")"
  | .iterator id =>
    let s := h.sequences[id]?.getD default
    "Iterator(cursor=" ++ toString s.cursor ++ ", produced=" ++ toString s.produced.length ++ ")"

/-- Text of a binding; a mutable one is marked. -/
def displayEntry (h : Heap) (entry : String × Binding) : String :=
  entry.1 ++ (if entry.2.constant then "" else " (mut)") ++ ": " ++ h.display entry.2.value

/-- Text of a scope's own table. -/
def frame (h : Heap) (e : ScopeId) : String :=
  "\x7b" ++ ", ".intercalate ((h.table e).entries.map h.displayEntry) ++ "\x7d"

/-- Text of a scope, with a hint that there are more around it. -/
def displayScope (h : Heap) (e : ScopeId) : String :=
  h.frame e ++ (if (h.parent? e).isSome then " -> ..." else "")

/-- Text of a scope and all scopes around it. -/
def displayChain (h : Heap) (e : ScopeId) : String :=
  "<Environment chain: " ++ " -> ".intercalate ((h.chain e).map h.frame) ++ ">"

end BlockScript.Heap
