/-
BlockScript/Command/Report.lean

The command: parse a file, show its tree, run it on a fresh root scope and
show the bindings it leaves.  What it prints is a function of its arguments,
the environment variables, the files and the grammars.

The sections of the output come in a fixed order, and each stands only if
everything before it went well:

    Parsing <path>...
    Parse tree:     <tree>
    Executing...
    Result:         <bindings>
-/
import BlockScript.Command.Options
import BlockScript.Command.Directory
import BlockScript.Source.Grammar
import BlockScript.Text.Terminal

namespace BlockScript

/-- How the command ends: with an exit code, or by a cause it does not
handle. -/
inductive Ending where
  | exit (code : Nat)
  | escape (halt : Halt)
deriving Repr, DecidableEq

/-- What the command did. -/
structure Report where
  ending : Ending
  output : String := ""
  errors : String := ""
deriving Repr, DecidableEq

/-- Everything the command depends on. -/
structure Surroundings where
  settings : Settings
  host : Host
  file? : String → Option ByteArray

/-- Lines of text, each with its end. -/
def lines (ls : List String) : String :=
  String.join (ls.map (· ++ "\n"))

/-- Lines that the command prints itself; unlike the lines of the log they
come without control sequences. -/
def printed (ls : List String) : String :=
  lines (ls.map plainText)

namespace Report

/-- A usage error. -/
def usage : Report :=
  { ending := .exit 2, errors := printed ["Usage: [--log-level LEVEL] PATH"] }

/-- The report that follows a hard stop: an error line and exit code 1, unless
the cause escapes. -/
def stopped (halt : Halt) (output log : String) : Report :=
  if halt.isReported then
    { ending := .exit 1, output, errors := log ++ printed ["Error: " ++ halt.message] }
  else { ending := .escape halt, output, errors := log }

/-- Runs a tree without syntax errors; `output` and `log` are what was printed
before. -/
def execute (settings : Settings) (level : Nat) (tree : Node) (output log : String) : Report :=
  match settings.maxDepth with
  | .error e => stopped (.badSetting e) output log
  | .ok limit =>
    let output := output ++ printed ["Executing..."]
    match BlockScript.run limit 0 tree Heap.initial with
    | .error halt m => stopped halt output (log ++ lines (Event.log level m.trace.toList))
    | .ok v m =>
      { ending := .exit 0
        output := output ++ printed ["", "Result:", (programBindings m.heap 0 v).json]
        errors := log ++ lines (Event.log level m.trace.toList) }

/-- Parses a file and runs it. -/
def process (s : Surroundings) (level : Nat) (path : String) (bytes : ByteArray) : Report :=
  let output := printed ["Parsing " ++ displayPath path ++ "..."]
  match Reader.parseFile s.host s.settings.grammar bytes {} with
  | .error halt r => stopped halt output (lines (Event.log level r.trace.toList))
  | .ok tree r =>
    let log := lines (Event.log level r.trace.toList)
    if tree.hasError then
      { ending := .exit 1, output, errors := log ++ printed ["Parse errors detected:", tree.sexp] }
    else execute s.settings level tree (output ++ printed ["Parse tree:", tree.sexp, ""]) log

/-- Runs the command. -/
def ofCommand (s : Surroundings) (args : List String) : Report :=
  match Options.parse? args with
  | none => usage
  | some options =>
    match s.file? options.path with
    | none => usage
    | some bytes => process s (options.level.getD s.settings.logLevel) options.path bytes

end Report

end BlockScript
