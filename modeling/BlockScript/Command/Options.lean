/-
BlockScript/Command/Options.lean

The command line: one path, and `--log-level` before or after it, its value
behind an equals sign or as the next argument.  Of several levels the last
one counts.  A lone `--` ends the options.
-/
import BlockScript.Settings

namespace BlockScript

/-- Arguments in the order in which they were given. -/
structure Arguments where
  paths : List String := []
  level : Option String := none
deriving Repr, DecidableEq

/-- The value behind an option and an equals sign. -/
def optionValue? (option arg : String) : Option String :=
  let front := (option ++ "=").toList
  if arg.toList.take front.length = front then some (String.ofList (arg.toList.drop front.length))
  else none

/-- Sorts arguments into paths and options; an unknown option, or a level
without a value, is refused. -/
def Arguments.parse? (parsed : Arguments) : List String → Option Arguments
  | [] => some parsed
  | ["--log-level"] => none
  | "--log-level" :: value :: rest => parse? { parsed with level := some value } rest
  | "--" :: rest => some { parsed with paths := parsed.paths ++ rest }
  | arg :: rest =>
    match optionValue? "--log-level" arg with
    | some value => parse? { parsed with level := some value } rest
    | none =>
      if arg.toList.head? = some '-' && arg ≠ "-" then none
      else parse? { parsed with paths := parsed.paths ++ [arg] } rest

/-- What a command line asks for. -/
structure Options where
  path : String
  level : Option Nat
deriving Repr, DecidableEq

/-- The levels that may be asked for. -/
def selectableLevels : List String :=
  ["DEBUG", "INFO", "WARNING", "ERROR"]

/-- The level that a word in any case asks for. -/
def selectedLevel? (word : String) : Option Nat :=
  (selectableLevels.find? (equalIgnoringCase · word)).map logLevelNamed

/-- Reads a command line; `none` is a usage error. -/
def Options.parse? (args : List String) : Option Options := do
  let parsed ← Arguments.parse? {} args
  let path ← match parsed.paths with
    | [path] => some path
    | _ => none
  match parsed.level with
  | none => return { path, level := none }
  | some word => return { path, level := some (← selectedLevel? word) }

end BlockScript
