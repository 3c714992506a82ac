import TreeTally.Outcome

namespace TreeTally

inductive LogLevel
  | error
  | warn
  | info
  | debug
  | trace
  deriving DecidableEq

inductive LogTopic
  | count
  | job
  | tasks
  | command
  | handles

def LogLevel.rank : LogLevel → Nat
  | error => 1
  | warn => 2
  | info => 3
  | debug => 4
  | trace => 5

def LogLevel.name : LogLevel → String
  | error => "ERROR"
  | warn => "WARN"
  | info => "INFO"
  | debug => "DEBUG"
  | trace => "TRACE"

def LogTopic.path : LogTopic → String
  | count => "deepcount_core::count"
  | job => "deepcount_core::job"
  | tasks => "deepcount_core::tasks"
  | command => "deepcount"
  | handles => "deepcount_ffi"

inductive LogMessage
  | otherDevice (path : Path)
  | unreadableFolder (path : Path) (fault : Fault)
  | skippedEntry (folder : Path) (fault : Fault)
  | starting (roots : Nat)
  | cancelling (roots : Nat)
  | finished (totals : Tally)
  | cancelled
  | failed (failure : Failure)
  | resultDropped
  | timeout
  | releasedWhileRunning

namespace LogMessage

def level : LogMessage → LogLevel
  | otherDevice _ => .trace
  | unreadableFolder _ _ | skippedEntry _ _ | cancelling _ | timeout | releasedWhileRunning => .debug
  | starting _ | finished _ | cancelled | failed _ => .info
  | resultDropped => .warn

def topic : LogMessage → LogTopic
  | otherDevice _ | unreadableFolder _ _ | skippedEntry _ _ => .count
  | starting _ | cancelling _ | finished _ | cancelled | failed _ => .job
  | resultDropped => .tasks
  | timeout => .command
  | releasedWhileRunning => .handles

def text : LogMessage → String
  | otherDevice p => "skipping " ++ p.display ++ ": different filesystem"
  | unreadableFolder p f => "unreadable directory " ++ p.display ++ ": " ++ f.message
  | skippedEntry p f => "skipping entry in " ++ p.display ++ ": " ++ f.message
  | starting n => "starting deep count of " ++ toString n ++ " root(s)"
  | cancelling n => "cancelling deep count of " ++ toString n ++ " root(s)"
  | finished t => "deep count finished: " ++ toString t.files ++ " files, " ++ toString t.folders ++
      " folders, " ++ toString t.bytes ++ " bytes"
  | cancelled => "deep count cancelled"
  | failed f => "deep count failed: " ++ f.message
  | resultDropped => "background task finished after its context went away; result dropped"
  | timeout => "timeout reached, cancelling"
  | releasedWhileRunning => "job freed while running; cancelling"

end LogMessage

end TreeTally
