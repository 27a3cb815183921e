/-
BlockScript/Scope/Snapshot.lean

The bindings of a scope as plain data, in the order of the table.  Blocks are
expanded to nested records.  A block whose scope is already open on the way
down is marked as a cycle instead, so the expansion ends on every heap; a
scope that is merely reached twice is expanded twice.
-/
import BlockScript.Scope.Data
import BlockScript.Scope.Heap
import BlockScript.Text.Blank

namespace BlockScript

/-- A value inside a record: null for void, the content of a scalar, and the
kind of anything else. -/
def Value.summary : Value → Data
  | .void => .null
  | .number x => .number x
  | .string s => .text s
  | .boolean b => .bool b
  | v => .text v.kind.name

/-- Stripped texts of parameters. -/
def paramTexts (params : List Node) : List String :=
  params.map fun p => strip p.text

namespace Heap

/-- The scopes that are not open on the way down. -/
def closed (h : Heap) (path : List ScopeId) : List ScopeId :=
  (List.range h.scopes.size).filter fun e => !path.contains e

theorem length_filter_lt {α : Type} {p q : α → Bool} (hpq : ∀ x, p x → q x) {a : α} {xs : List α}
    (ha : a ∈ xs) (hp : p a = false) (hq : q a = true) :
    (xs.filter p).length < (xs.filter q).length := by
  simp only [← List.countP_eq_length_filter]
  obtain ⟨front, back, rfl⟩ := List.append_of_mem ha
  have hfront : front.countP p ≤ front.countP q := List.countP_mono_left fun x _ => hpq x
  have hback : back.countP p ≤ back.countP q := List.countP_mono_left fun x _ => hpq x
  simp [List.countP_append, hp, hq]
  omega

/-- Opening a scope leaves fewer closed ones. -/
theorem length_closed_lt {h : Heap} {path : List ScopeId} {e : ScopeId} (he : e < h.scopes.size)
    (hpath : path.contains e = false) : (h.closed (e :: path)).length < (h.closed path).length := by
  refine length_filter_lt (a := e) (fun x hx => ?_) (List.mem_range.2 he) (by simp) (by simp_all)
  simp_all

/-- What is reported about a function. -/
def functionRecord (h : Heap) (id : Nat) (constant : Bool) : Data :=
  let c := h.closures[id]?.getD default
  .record [("params", .list ((paramTexts c.params).map .text)),
    ("body", .text (collapse c.body.text)), ("constant", .bool constant)]

/-- What is reported about an iterator. -/
def iteratorRecord (h : Heap) (id : Nat) (constant : Bool) : Data :=
  let s := h.sequences[id]?.getD default
  .record [("params", .list ((paramTexts s.params).map .text)),
    ("produced", .list (s.produced.map Value.summary)), ("cursor", .int s.cursor),
    ("constant", .bool constant)]

/-- What is reported about a block whose scope is open. -/
def cycleRecord (constant : Bool) : Data :=
  .record [("cycle", .bool true), ("constant", .bool constant)]

/-- The bindings of a table, with the scopes of `path` open. -/
def expand (h : Heap) (path : List ScopeId) (t : Table) : Data :=
  .record <| t.entries.map fun (name, b) =>
    (name,
      match b.value with
      | .block e =>
        if _hp : path.contains e then cycleRecord b.constant
        else
          match _he : h.scopes[e]? with
          | some s => h.expand (e :: path) s.table
          | none => .record []
      | .function id => h.functionRecord id b.constant
      | .iterator id => h.iteratorRecord id b.constant
      | v => .record [("value", v.summary), ("constant", .bool b.constant)])
termination_by (h.closed path).length
decreasing_by
  have hlt : e < h.scopes.size := (Array.getElem?_eq_some_iff.1 _he).1
  exact length_closed_lt hlt (by simpa using _hp)

/-- The bindings of a scope. -/
def snapshot (h : Heap) (e : ScopeId) : Data :=
  h.expand [e] (h.table e)

end Heap

end BlockScript
