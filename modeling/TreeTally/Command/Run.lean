import TreeTally.Background.Owner
import TreeTally.Background.Worker
import TreeTally.Command.Arguments
import TreeTally.Command.Environment
import TreeTally.Command.Report
import TreeTally.Disk.Files
import TreeTally.Log.Filter
import TreeTally.Log.Line

namespace TreeTally.Command

/-- What the program finds around it. The pace says how many moves the worker makes before each turn
of the program. -/
structure Surroundings where
  disk : Disk
  followVariable : Option String := none
  logVariable : Option String := none
  logStyle : LogStyle := .plain
  workerClock : Nat → Instant
  ownClock : Nat → Instant
  pace : Nat → Nat

inductive ProgramEnd
  | exit (code : Nat) (output errors : String)
  /-- The deadline lies past the end of the clock. -/
  | crash (output : String)

def exitFailure : Nat := 2

def exitCancelled : Nat := 130

def usage : String := "deepcount

USAGE:
  deepcount count [--follow-symlinks] [--json] [--quiet] [-v]
                  [--interval-ms <n>] [--timeout-secs <n>] [<path>...]
  deepcount ls <dir>

NOTES:
  - Counting stays on the filesystem of each given path; mounts below it are skipped.
  - Ctrl-C cancels a running count (exit code 130).
  - DEEPCOUNT_LOG sets the log filter, DEEPCOUNT_FOLLOW_SYMLINKS=1 follows symlinks by default.

"

def errorLine (message : String) : String := "error: " ++ message ++ "\n"

def refuse (r : Refusal) : ProgramEnd := .exit exitFailure "" (errorLine r.message)

def UsageError.toRefusal (e : UsageError) : Refusal := .invalidArgument e.message

def ProgramEnd.after (errors : String) : ProgramEnd → ProgramEnd
  | exit code output e => exit code output (errors ++ e)
  | crash output => crash output

def complaintLines (l : List LogFilter.Complaint) : String := String.join (l.map (·.line))

def clearLine : String := "\r\x1b[2K"

namespace Settings

def showsProgress (s : Settings) : Bool := !s.quiet && !s.json

def options (s : Settings) : Options := { follow := s.follow, interval := s.interval }

/-- The variable for the log counts more than the flag. -/
def logSetting (s : Settings) (setting : Option String) : List Char :=
  (setting.getD (if s.verbose then "debug" else "warn")).toList

end Settings

def jobSpec (w : Surroundings) (s : Settings) : JobSpec where
  roots := s.roots
  options := s.options
  fs := w.disk.fileSystem
  clock := w.workerClock
  effort := w.disk.effort s.roots.length 0

def delivered (b : Background Unit) : Bool := b.jobs.any (·.delivered)

def moveWorkerUpTo : Nat → Background Unit → Background Unit := Background.settleLane .idle

def checkDeadline (deadline : Option Instant) (now : Instant) (b : Background Unit) :
    Background Unit :=
  match deadline with
  | none => b
  | some due =>
      if due ≤ now ∧ !(b.jobs.any fun j => b.isCancelled j.token) then (b.log .timeout).cancel 0
      else b

/-- Takes turns until the count is delivered; nothing if that takes more turns than allowed. -/
def await (w : Surroundings) (deadline : Option Instant) :
    Nat → Nat → Background Unit → Option (Background Unit)
  | 0, _, _ => none
  | turns + 1, turn, b =>
      if delivered b then some b
      else
        let b := moveWorkerUpTo (w.pace turn) b
        let b := checkDeadline deadline (w.ownClock (turn + 1)) b
        await w deadline turns (turn + 1) b.iterate.2

def showRecord (f : LogFilter) (style : LogStyle) : Record Unit → String
  | .log m => if f.shows m then m.line style else ""
  | .call (.progress _ _ t) => clearLine ++ summaryLine t
  | .call _ => ""

def showJournal (f : LogFilter) (style : LogStyle) (b : Background Unit) : String :=
  String.join (b.journal.map (showRecord f style))

def result? (b : Background Unit) : Option Outcome := b.calls.findSome? fun
  | .done _ o _ => some o
  | _ => none

def showResult (s : Settings) (errors : String) : Option Outcome → ProgramEnd
  | none => .exit exitFailure ""
      (errors ++ errorLine (Refusal.invalidArgument "count finished without a result").message)
  | some (.ok t) =>
      .exit 0 (if s.json then jsonReport t false ++ "\n" else plainReport t) errors
  | some (.error (.cancelled t)) =>
      .exit exitCancelled (if s.json then jsonReport t true ++ "\n" else "")
        (errors ++ "cancelled\n")
  | some (.error f) => .exit exitFailure "" (errors ++ errorLine f.message)

def startCount (w : Surroundings) (s : Settings) : Except Refusal (Background Unit) := do
  let b ← ({} : Background Unit).create (jobSpec w s)
  (if s.showsProgress then b.observe 0 none 0 else b).run 0

def countWithin (w : Surroundings) (s : Settings) (f : LogFilter) (turns : Nat) :
    Option ProgramEnd :=
  match startCount w s with
  | .error r => some (refuse r)
  | .ok b =>
      let due := s.timeout.map (w.ownClock 0).add?
      if due = some none then some (.crash "")
      else (await w due.join turns 0 b).map fun b =>
        let errors := showJournal f w.logStyle b
        showResult s (if s.showsProgress then errors ++ clearLine else errors) (result? b)

def marker : EntryKind → String
  | .folder => "d"
  | .link => "l"
  | .file => "-"
  | .other => "?"

def entryLine (e : Disk.FolderEntry) : String :=
  let size := Size.text e.size
  marker e.kind ++ " " ++ String.ofList (List.replicate (10 - size.length) ' ') ++ size ++ " " ++
    String.ofList e.name ++ "\n"

def listFolder (d : Disk) (folder : String) : ProgramEnd :=
  match d.listFolder (.ofString folder) fun _ => false with
  | .error r => refuse r
  | .ok entries => .exit 0 (String.join (entries.map entryLine)) ""

def runWithin (w : Surroundings) (turns : Settings → Nat) : List String → Option ProgramEnd
  | [] => some (.exit 0 usage "")
  | command :: args =>
      if command = "--help" ∨ command = "-h" ∨ command = "help" then some (.exit 0 usage "")
      else if command = "count" then
        match Settings.parse (isOn w.followVariable) args with
        | .error e => some (refuse e.toRefusal)
        | .ok s =>
            let (filter, complaints) := LogFilter.read (s.logSetting w.logVariable)
            (countWithin w s filter (turns s)).map (.after (complaintLines complaints))
      else if command = "ls" then
        match args with
        | [] => some (refuse UsageError.missingFolder.toRefusal)
        | [folder] =>
            let (_, complaints) := LogFilter.read (Settings.logSetting {} w.logVariable)
            some ((listFolder w.disk folder).after (complaintLines complaints))
        | _ :: extra :: _ => some (refuse (UsageError.unknownArgument extra).toRefusal)
      else some (refuse (UsageError.unknownCommand command).toRefusal)

def turnsAtOnce (w : Surroundings) (s : Settings) : Nat := w.disk.effort s.roots.length 0 + 2

def run (w : Surroundings) : List String → Option ProgramEnd := runWithin w (turnsAtOnce w)

end TreeTally.Command
