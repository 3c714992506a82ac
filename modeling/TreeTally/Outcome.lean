import TreeTally.Fault
import TreeTally.Tally

namespace TreeTally

inductive Failure
  | cancelled (soFar : Tally)
  | unreadable (path : Path) (fault : Fault)

abbrev Outcome := Except Failure Tally

def Failure.isCancelled : Failure → Bool
  | cancelled _ => true
  | unreadable _ _ => false

def Failure.message : Failure → String
  | cancelled _ => "count was cancelled"
  | unreadable p f => "failed to read " ++ p.display ++ ": " ++ f.message

/-- A request that is turned down before or instead of a count. -/
inductive Refusal
  | fault (f : Fault)
  | invalidArgument (what : String)
  | emptyRoots
  | alreadyStarted
  | cancelled

def Refusal.message : Refusal → String
  | fault f => "I/O error: " ++ f.message
  | invalidArgument what => "invalid argument: " ++ what
  | emptyRoots => "a count job needs at least one root file"
  | alreadyStarted => "the job has already been started"
  | cancelled => "operation was cancelled"

end TreeTally
