/-
BlockScript/Evaluation/Run.lean

Running a whole program in a scope that outlives the run.  The statements of
a root block are evaluated in that scope itself, so the names one run binds
are there for the next.
-/
import BlockScript.Evaluation.Evaluate
import BlockScript.Scope.Snapshot

namespace BlockScript

/-- How a computation ended, with the state it left behind. -/
abbrev Outcome := EStateM.Result Halt Machine

/-- Evaluates a tree with a new machine. -/
def evaluate (limit : Int) (e : ScopeId) (tree : Node) (heap : Heap) : Outcome Value :=
  eval limit e tree { heap }

/-- The value of a program: the root scope as a block if the tree is a block,
the value of the tree otherwise. -/
def evalProgram (limit : Int) (root : ScopeId) (tree : Node) : Eval Value := do
  if tree.form? = some .block then
    discard (evalAll limit root tree.operands)
    return .block root
  else eval limit root tree

/-- Logs the number of diagnostics, if there are any. -/
def Machine.finish (m : Machine) : Machine :=
  if m.diagnostics.isEmpty then m else m.emit (.finished m.diagnostics.size)

/-- Runs a tree against a root scope.  A tree with a syntax error is refused
before anything is evaluated. -/
def run (limit : Int) (root : ScopeId) (tree : Node) (heap : Heap) : Outcome Value :=
  if tree.hasError then .error (.syntaxError tree.sexp) { heap }
  else
    match evalProgram limit root tree { heap } with
    | .ok v m => .ok v m.finish
    | .error halt m => .error halt m

/-- Runs a tree with the nesting limit of the settings. -/
def runConfigured (settings : Settings) (root : ScopeId) (tree : Node) (heap : Heap) :
    Outcome Value :=
  if tree.hasError then .error (.syntaxError tree.sexp) { heap }
  else
    match settings.maxDepth with
    | .ok limit => run limit root tree heap
    | .error e => .error (.badSetting e) { heap }

/-- The bindings a run reports: those of the block it returned, else those of
the root scope. -/
def programBindings (heap : Heap) (root : ScopeId) : Value → Data
  | .block e => heap.snapshot e
  | _ => heap.snapshot root

end BlockScript
