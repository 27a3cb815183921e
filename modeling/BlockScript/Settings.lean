/-
BlockScript/Settings.lean

What the environment variables decide: the nesting limit, the log level and
the grammar.  A malformed nesting limit is an error; the other two fall back
to their defaults.
-/
import BlockScript.Text.Blank
import BlockScript.Text.Capital
import BlockScript.Text.Digit
import BlockScript.Text.Quoted

namespace BlockScript

/-- The environment variables that are set, and the number of stack frames
that the host allows. -/
structure Settings where
  entries : List (String × String) := []
  frameLimit : Int := 1000

/-- Why a nesting limit is refused. -/
inductive SettingError where
  | notAnInteger (name raw : String)
  | notPositive (name : String) (value : Int)
deriving Repr, DecidableEq

/-- The message about a refused limit, which names the variable and what it was set to. -/
def SettingError.message : SettingError → String
  | notAnInteger name raw => name ++ " must be an integer, got " ++ quoted raw
  | notPositive name value => name ++ " must be positive, got " ++ toString value

/-! ### Integers -/

/-- The greatest number of digits an integer setting may have. -/
def maxIntegerDigits : Nat := 4300

/-- Digits of any script in groups that single underscores divide. -/
def digitGroups? (cs : List Char) : Option Nat :=
  let groups := pieces (· == '_') cs
  let digits := groups.flatten
  if groups.all (· ≠ []) && digits.all isDecimalDigit && digits.length ≤ maxIntegerDigits then
    some (decimalValue digits)
  else none

/-- An integer with an optional sign. -/
def integer? : List Char → Option Int
  | '-' :: cs => (digitGroups? cs).map fun n => -(n : Int)
  | '+' :: cs => (digitGroups? cs).map fun n => (n : Int)
  | cs => (digitGroups? cs).map fun n => (n : Int)

/-! ### Log levels -/

/-- The named log levels; a lower level logs more. -/
def logLevels : List (String × Nat) :=
  [("NOTSET", 0), ("DEBUG", 10), ("INFO", 20), ("WARN", 30), ("WARNING", 30), ("ERROR", 40),
   ("CRITICAL", 50), ("FATAL", 50)]

/-- The level of warnings. -/
def defaultLogLevel : Nat := 30

/-- The level of a name in any case; an unknown name means the default. -/
def logLevelNamed (name : String) : Nat :=
  (logLevels.lookup (capitalize (strip name))).getD defaultLogLevel

namespace Settings

/-- The variable that sets the nesting limit. -/
def depthVariable : String := "SCRIBL_MAX_DEPTH"

/-- The variable that sets the log level. -/
def levelVariable : String := "SCRIBL_LOG_LEVEL"

/-- The variable that names the grammar. -/
def grammarVariable : String := "SCRIBL_GRAMMAR"

/-- The value of a variable, if it is set. -/
def get? (settings : Settings) (name : String) : Option String :=
  settings.entries.lookup name

/-- Frames kept free below the evaluator. -/
def frameMargin : Int := 200

/-- Frames that one level of nesting takes. -/
def framesPerLevel : Int := 2

/-- The deepest nesting that the host's stack bears. -/
def defaultMaxDepth (settings : Settings) : Int :=
  max 1 ((settings.frameLimit - frameMargin) / framesPerLevel)

/-- A positive integer variable; unset or blank means the default. -/
def positive (settings : Settings) (name : String) (default : Int) : Except SettingError Int :=
  let raw := (settings.get? name).getD ""
  if strip raw = "" then .ok default
  else
    match integer? (strip raw).toList with
    | none => .error (.notAnInteger name raw)
    | some n => if 0 < n then .ok n else .error (.notPositive name n)

/-- The nesting limit of an evaluation. -/
def maxDepth (settings : Settings) : Except SettingError Int :=
  settings.positive depthVariable settings.defaultMaxDepth

/-- The level below which nothing is logged. -/
def logLevel (settings : Settings) : Nat :=
  match settings.get? levelVariable with
  | some name => logLevelNamed name
  | none => defaultLogLevel

/-- The grammar to parse with where no other is named. -/
def defaultGrammar : String := "tree_sitter_scribl"

/-- The name of the grammar to parse with. -/
def grammar (settings : Settings) : String :=
  let name := strip ((settings.get? grammarVariable).getD "")
  if name = "" then defaultGrammar else name

end Settings

end BlockScript
