/-
BlockScript/Evaluation/Diagnostic.lean

What an evaluation reports: a diagnostic for each fault it recovered from,
and events, which are its log.
-/
import BlockScript.Failure
import BlockScript.Syntax.Form
import BlockScript.Text.Blank

namespace BlockScript

/-- A fault and the node at which it was recovered. -/
structure Diagnostic where
  error : String
  message : String
  nodeKind : String
  nodeText : String
deriving Repr, DecidableEq, Inhabited

namespace Diagnostic

/-- A diagnostic of a given class and message, at a node if there is one. -/
def ofMessage (error message : String) (node : Option Node) : Diagnostic :=
  { error, message
    nodeKind := (node.map (·.kind)).getD ""
    nodeText := (node.map fun n => collapse n.text).getD "" }

/-- The diagnostic of a fault at a node. -/
def ofFault (f : Fault) (n : Node) : Diagnostic :=
  ofMessage f.label f.message (some n)

/-- The line that reports a diagnostic. -/
def text (d : Diagnostic) : String :=
  d.error ++ ": " ++ d.message ++ " [" ++ d.nodeKind ++ ": " ++ d.nodeText ++ "]"

end Diagnostic

/-- What happens in the course of an evaluation. -/
inductive Event where
  | entered (node : Node) (depth : Nat)
  | recovered (diagnostic : Diagnostic)
  | blockCreated (name path : String)
  | targetIgnored (kind text : String)
  | finished (diagnostics : Nat)
  | grammarLoaded (name : String)
deriving Repr, Inhabited

namespace Event

/-- The log level of an event, as a number and a word. -/
def level : Event → Nat × String
  | recovered .. => (30, "WARNING")
  | finished .. => (20, "INFO")
  | _ => (10, "DEBUG")

/-- The channel on which an event is logged. -/
def channel : Event → String
  | entered .. => "scribl.evaluation.evaluator"
  | recovered .. => "scribl.runtime_context"
  | blockCreated .. => "scribl.types.environment"
  | targetIgnored .. => "scribl.evaluation.node_forms.assignment_form"
  | finished .. => "scribl.interpreter"
  | grammarLoaded .. => "scribl.reader.parser"

/-- The message of an event.  Entering a node that has no form is silent. -/
def message? : Event → Option String
  | entered node depth =>
    if node.form?.isSome then some ("evaluate " ++ node.kind ++ " at depth " ++ toString depth)
    else none
  | recovered d => some d.text
  | blockCreated name path => some ("Autovivified block '" ++ name ++ "' in " ++ path)
  | targetIgnored kind text => some ("Ignoring assignment to " ++ kind ++ " target: " ++ text)
  | finished count => some ("Evaluation finished with " ++ toString count ++ " diagnostic(s)")
  | grammarLoaded name => some ("Loaded Scribl grammar from " ++ name)

/-- The log line of an event. -/
def line? (e : Event) : Option String :=
  e.message?.map fun message => e.level.2 ++ " " ++ e.channel ++ ": " ++ message

/-- The log lines of events at or above a level. -/
def log (threshold : Nat) (events : List Event) : List String :=
  (events.filter fun e => threshold ≤ e.level.1).filterMap line?

end Event

end BlockScript
