/-
BlockScript/Main.lean

The command as an executable.  No grammar is linked into it, so every file
that is found is answered with the report on a missing grammar.
-/
import BlockScript.Command.Report

namespace BlockScript

/-- The environment variables that the command looks at. -/
def readVariables : IO (List (String × String)) := do
  let names := [Settings.depthVariable, Settings.levelVariable, Settings.grammarVariable]
  names.filterMapM fun name => return (← IO.getEnv name).map (name, ·)

/-- The content of a file, if there is one to read. -/
def readContent? (path : String) : IO (Option ByteArray) := do
  try
    return some (← IO.FS.readBinFile path)
  catch _ =>
    return none

/-- The host that has no grammars. -/
def bareHost : Host where
  grammars := []
  parse _ _ := { kind := "ERROR" }

end BlockScript

open BlockScript in
/-- Runs the command and prints its report. -/
def main (args : List String) : IO UInt32 := do
  let settings : Settings := { entries := ← readVariables }
  let path := ((Options.parse? args).map (·.path)).getD ""
  let content ← readContent? path
  let report := Report.ofCommand { settings, host := bareHost, file? := fun _ => content } args
  IO.print report.output
  IO.eprint report.errors
  match report.ending with
  | .exit code => return code.toUInt32
  | .escape halt =>
    IO.eprintln halt.message
    return 1
