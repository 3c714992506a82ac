import TreeTally.Command.Run
import TreeTally.Disk.Layout

namespace TreeTally.Command

/-- One clock reading serves for the whole run, and the worker is done before the first turn. -/
def Surroundings.atOnce (disk : Disk) (follow log : Option String) (style : LogStyle) (now : Instant) :
    Surroundings where
  disk := disk
  followVariable := follow
  logVariable := log
  logStyle := style
  workerClock _ := now
  ownClock _ := now
  pace _ := disk.effort disk.nodes.length 0

end TreeTally.Command

open TreeTally

def main (args : List String) : IO UInt32 := do
  let disk := Disk.ofLayout (← (← IO.getStdin).readToEnd)
  let follow ← IO.getEnv "DEEPCOUNT_FOLLOW_SYMLINKS"
  let log ← IO.getEnv "DEEPCOUNT_LOG"
  let style := Command.logStyle (← IO.getEnv "RUST_LOG_STYLE") (← IO.getEnv "NO_COLOR")
    (← IO.getEnv "CLICOLOR_FORCE")
  let now : Instant := ⟨← IO.monoNanosNow⟩
  match Command.run (.atOnce disk follow log style now) args with
  | some (.exit code output errors) =>
      IO.eprint errors
      IO.print output
      return code.toUInt32
  | some (.crash output) =>
      IO.print output
      IO.eprintln Instant.overrunText
      return 101
  | none => return 1
