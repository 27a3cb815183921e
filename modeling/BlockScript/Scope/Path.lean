/-
BlockScript/Scope/Path.lean

Assignment to a member of a member, `a.b.c`.

The first name of a path is looked up through the enclosing scopes, every
later one in the own table of the block reached so far.  Whether the walk may
create what it does not find is decided by the context: at the start that is
the constancy of the assignment, and behind a block that of its binding.  In
a mutable context a vacant name (unbound or void) before the last becomes a
new mutable block; in a constant one it is an error.

A block that was just created is empty, so from there on the walk only
creates.  Hence it never fails after it has created something.
-/
import BlockScript.Scope.Heap
import BlockScript.Text.Blank

namespace BlockScript

/-- Where a name is looked for. -/
inductive Reach where
  | chain
  | own
deriving Repr, DecidableEq

/-- Where a path leads: the scope that holds its last name, and the names of
the blocks made on the way. -/
structure Arrival where
  scope : ScopeId
  created : List String
deriving Repr, DecidableEq

namespace Heap

/-- The binding of a name, as far out as it is looked for. -/
def find? (h : Heap) : Reach → ScopeId → String → Option Binding
  | .chain, e, name => h.binding? e name
  | .own, e, name => h.own? e name

/-- Binds a name as far out as it is looked for. -/
def put : Reach → ScopeId → String → Binding → HeapAction Unit
  | .chain => declare
  | .own => assignOwn

/-- Adds an empty scope inside another, as a step. -/
def openScope (e : ScopeId) : HeapAction ScopeId := fun h =>
  let (child, h) := h.extend e
  .ok child h

/-- Binds a name to a new mutable block and gives its scope. -/
def createBlock (reach : Reach) (e : ScopeId) (name : String) : HeapAction ScopeId := do
  let child := (← get).scopes.size
  put reach e name ⟨.block child, false⟩
  openScope e

/-- Walks a path from a scope. -/
def walk (reach : Reach) (e : ScopeId) (constant : Bool) : List String → HeapAction Arrival
  | [] => return ⟨e, []⟩
  | [name] => do
    match (← get).find? reach e name with
    | none | some ⟨.void, _⟩ =>
      if constant then throw (.soft (.vacantMember name)) else return ⟨e, []⟩
    | some _ => return ⟨e, []⟩
  | name :: rest => do
    match (← get).find? reach e name with
    | none | some ⟨.void, _⟩ =>
      if constant then throw (.soft (.vacantMember name))
      else
        let child ← createBlock reach e name
        let arrival ← walk .own child constant rest
        return { arrival with created := name :: arrival.created }
    | some ⟨.block inner, mark⟩ => walk .own inner mark rest
    | some ⟨value, _⟩ => throw (.soft (.throughNonBlock name value.kind))

/-- Walks a path of names that may have blanks around them. -/
def resolvePath (e : ScopeId) (path : List String) (constant : Bool) : HeapAction Arrival :=
  let segments := path.map strip
  if segments = [] || segments.contains "" then throw (.soft (.invalidPath segments))
  else walk .chain e constant segments

end Heap

end BlockScript
