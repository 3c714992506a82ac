import TreeTally.Options
import TreeTally.Path.Basic
import TreeTally.Text.Decimal

namespace TreeTally.Command

inductive NumberFlag
  | interval
  | timeout
  deriving DecidableEq

def NumberFlag.text : NumberFlag → String
  | interval => "--interval-ms"
  | timeout => "--timeout-secs"

inductive UsageError
  | unknownArgument (a : String)
  | missingValue (flag : NumberFlag)
  | invalidValue (flag : NumberFlag) (value : String)
  | unknownCommand (c : String)
  | missingFolder
  deriving DecidableEq

def UsageError.message : UsageError → String
  | unknownArgument a => "unknown arg: " ++ a
  | missingValue f => "missing value for " ++ f.text
  | invalidValue f v => "invalid value for " ++ f.text ++ ": " ++ v
  | unknownCommand c => "unknown command: " ++ c
  | missingFolder => "missing <dir>"

inductive Word
  | follow
  | json
  | quiet
  | verbose
  | number (flag : NumberFlag)
  | onlyRoots
  | unknown
  | root

/-- A lone dash and the empty text are roots. -/
def Word.of (a : String) : Word :=
  if a = "--follow-symlinks" ∨ a = "-L" then .follow
  else if a = "--json" then .json
  else if a = "--quiet" ∨ a = "-q" then .quiet
  else if a = "-v" ∨ a = "--verbose" then .verbose
  else if a = NumberFlag.interval.text then .number .interval
  else if a = NumberFlag.timeout.text then .number .timeout
  else if a = "--" then .onlyRoots
  else if a.toList.head? = some '-' ∧ 1 < a.utf8ByteSize then .unknown
  else .root

structure Settings where
  roots : List Path := []
  follow : Bool := false
  json : Bool := false
  quiet : Bool := false
  verbose : Bool := false
  interval : Duration := Throttle.defaultInterval
  timeout : Option Duration := none

namespace Settings

def setNumber (s : Settings) (n : Nat) : NumberFlag → Settings
  | .interval => { s with interval := .ofMillis n }
  | .timeout => { s with timeout := some (.ofSeconds n) }

def addRoots (s : Settings) (l : List String) : Settings :=
  { s with roots := s.roots ++ l.map Path.ofString }

/-- Reads the arguments from left to right; a flag that comes twice counts as it came last. -/
def read (s : Settings) : List String → Except UsageError Settings
  | [] => .ok s
  | a :: rest => match Word.of a with
    | .follow => { s with follow := true }.read rest
    | .json => { s with json := true }.read rest
    | .quiet => { s with quiet := true }.read rest
    | .verbose => { s with verbose := true }.read rest
    | .onlyRoots => .ok (s.addRoots rest)
    | .unknown => .error (.unknownArgument a)
    | .root => (s.addRoots [a]).read rest
    | .number flag => match rest with
      | [] => .error (.missingValue flag)
      | v :: rest => match Decimal.parse? v with
        | none => .error (.invalidValue flag v)
        | some n => (s.setNumber n flag).read rest

def orHere (s : Settings) : Settings :=
  if s.roots.isEmpty then { s with roots := [.ofString "."] } else s

def parse (followDefault : Bool) (args : List String) : Except UsageError Settings :=
  ({ follow := followDefault : Settings }.read args).map orHere

end Settings

end TreeTally.Command
