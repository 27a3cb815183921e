/-
BlockScript/Evaluation/Machine.lean

The state of an evaluation: the heap, how deep the current node is nested,
the diagnostics so far and the events so far.

A `Step` may fail softly or hard.  `recover` turns a step at a node into an
`Eval`, which only fails hard: a soft fault becomes a diagnostic, and the
node's value is void.  `nested` enters a node, runs an evaluation one level
deeper and leaves the node again, whatever the outcome.

The host's call stack is taken to be unbounded: an evaluation goes as deep as the
nesting limit lets it, also where the limit was set to more levels than the stack
of an actual host has frames for.
-/
import BlockScript.Evaluation.Diagnostic
import BlockScript.Scope.Path

namespace BlockScript

/-- The events of walking a path. -/
def Arrival.events (path : List String) (arrival : Arrival) : List Event :=
  arrival.created.map (.blockCreated · (".".intercalate (path.map strip)))

/-- State of an evaluation. -/
structure Machine where
  heap : Heap
  depth : Nat := 0
  diagnostics : Array Diagnostic := #[]
  trace : Array Event := #[]
deriving Inhabited

/-- A computation that may fail softly or hard. -/
abbrev Step := EStateM Failure Machine

/-- A computation that may fail hard only. -/
abbrev Eval := EStateM Halt Machine

namespace Machine

/-- Appends an event to the log. -/
def emit (m : Machine) (e : Event) : Machine :=
  { m with trace := m.trace.push e }

/-- Emits events in order. -/
def emitAll (m : Machine) (es : List Event) : Machine :=
  es.foldl emit m

/-- Records a diagnostic and logs it. -/
def report (m : Machine) (d : Diagnostic) : Machine :=
  { m.emit (.recovered d) with diagnostics := m.diagnostics.push d }

end Machine

namespace Step

/-- A step on the heap alone. -/
def onHeap {α : Type} (action : HeapAction α) : Step α := fun m =>
  match action m.heap with
  | .ok a h => .ok a { m with heap := h }
  | .error f h => .error f { m with heap := h }

/-- Emits events in order, as a step. -/
def emitAll (es : List Event) : Step Unit :=
  modify (·.emitAll es)

/-- A result that may be a soft fault. -/
def ofExcept {α : Type} : Except Fault α → Step α
  | .ok a => pure a
  | .error f => throw (.soft f)

/-- Recovers from a soft fault at a node. -/
def recover (n : Node) (step : Step Value) : Eval Value := fun m =>
  match step m with
  | .ok v m => .ok v m
  | .error (.soft f) m => .ok .void (m.report (.ofFault f n))
  | .error (.hard halt) m => .error halt m

end Step

namespace Eval

/-- Evaluates a node's content one level deeper than the node.  The limit is
checked first; the level is left again on every outcome. -/
def nested {α : Type} (limit : Int) (n : Node) (content : Eval α) : Eval α := fun m =>
  if limit ≤ m.depth then .error (.tooDeep limit n.kind) m
  else
    let inner := { m with depth := m.depth + 1 }
    match content (inner.emit (.entered n inner.depth)) with
    | .ok a m => .ok a { m with depth := m.depth - 1 }
    | .error halt m => .error halt { m with depth := m.depth - 1 }

end Eval

end BlockScript
