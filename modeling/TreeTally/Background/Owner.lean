import TreeTally.Background.Basic

namespace TreeTally.Background

variable {α : Type}

/-- A count that succeeded under a token that is cancelled by now counts as cancelled, with all its
totals. -/
def settleOutcome (cancelled : Bool) : Outcome → Outcome
  | .ok t => if cancelled then .error (.cancelled t) else .ok t
  | o => o

def stateAfter : Outcome → JobState
  | .ok _ => .succeeded
  | .error (.cancelled _) => .cancelled
  | .error (.unreadable _ _) => .failed

def messageAfter : Outcome → LogMessage
  | .ok t => .finished t
  | .error (.cancelled _) => .cancelled
  | .error f => .failed f

def readProgress (b : Background α) (job observer : Nat) (totals : Tally) : Background α :=
  match b.jobs[job]?, b.observers[observer]? with
  | some j, some o =>
      if b.isCancelled j.token then b
      else
        let calls := o.calls + 1
        let b := { b with observers := b.observers.set observer { o with calls } }.record
          (.call (.progress job o.label totals))
        if calls = o.cancelAt then b.cancelToken j.token else b
  | _, _ => b

/-- The owner is called back, and sees the job in the state it is in by then. -/
def hearEnd (b : Background α) (job : Nat) (o : Outcome) : Background α :=
  match b.jobs[job]? with
  | none => b
  | some j => (b.record (.call (.done job o j.state))).modifyJob job fun j =>
      { j with delivered := true }

def readCounted (b : Background α) (job : Nat) (o : Outcome) : Background α :=
  match b.jobs[job]? with
  | none => b
  | some j =>
      let o := settleOutcome (b.isCancelled j.token) o
      ((b.log (messageAfter o)).modifyJob job fun j => { j with state := stateAfter o }).hearEnd job o

/-- The state is written before the owner is called, so that is the state the owner sees. -/
theorem readCounted_eq (b : Background α) (job : Nat) (out : Outcome) : b.readCounted job out =
    match b.jobs[job]? with
    | none => b
    | some j =>
        let o := settleOutcome (b.isCancelled j.token) out
        ((b.modifyJob job fun j => { j with delivered := true, state := stateAfter o }).log
          (messageAfter o)).record (.call (.done job o (stateAfter o))) := by
  rw [readCounted]
  cases hj : b.jobs[job]? with
  | none => rfl
  | some j =>
      let o := settleOutcome (b.isCancelled j.token) out
      let c := (b.log (messageAfter o)).modifyJob job fun j => { j with state := stateAfter o }
      have hc : c.jobs[job]? = some { j with state := stateAfter o } := by
        show (b.jobs.modify job _)[job]? = _
        rw [List.getElem?_modify_eq, hj]
        rfl
      show c.hearEnd job o = _
      rw [hearEnd, hc]
      -- The job is changed twice, around the call.
      refine congrArg (fun jobs => { c.record (.call (.done job o (stateAfter o))) with jobs }) ?_
      exact List.modify_modify_eq _ _ job b.jobs

def readErrand (b : Background α) (errand : Nat) (first second : Bool) : Background α :=
  match b.errands[errand]? with
  | none => b
  | some e =>
      { b with errands := b.errands.set errand { e with delivered := true } }.record
        (.call (.errandDone errand e.label first second))

def readLetter (b : Background α) : Letter α → Background α
  | .note (.mk label next) =>
      let b := b.record (.call (.note label))
      { b with mailbox := b.mailbox.postAll (next.map .note) }
  | .progress job observer totals => b.readProgress job observer totals
  | .counted job o => b.readCounted job o
  | .errandDone errand first second => b.readErrand errand first second

def iterate? (b : Background α) : Option (Background α) :=
  b.mailbox.take?.map fun (letter, mailbox) => { b with mailbox }.readLetter letter

def iterate (b : Background α) : Bool × Background α :=
  match b.iterate? with
  | some b => (true, b)
  | none => (false, b)

/-- More letters than can be read before the mailbox is empty, as long as nobody else posts. -/
def backlog (b : Background α) : Nat := Letter.weights b.mailbox.waiting

def dispatchUpTo : Nat → Background α → Nat × Background α
  | 0, b => (0, b)
  | fuel + 1, b => match b.iterate? with
    | none => (0, b)
    | some b =>
        let (n, b) := dispatchUpTo fuel b
        (n + 1, b)

def dispatch (b : Background α) : Nat × Background α := dispatchUpTo b.backlog b

def readUntil (done : Background α → Bool) : Nat → Background α → Bool × Background α
  | 0, b => (done b, b)
  | fuel + 1, b =>
      if done b then (true, b)
      else match b.iterate? with
        | none => (false, b)
        | some b => readUntil done fuel b

/-- Reads letters until the owner is content or none is left; without any time, none is read. -/
def runUntil (b : Background α) (done : Background α → Bool) (anyTime : Bool) :
    Bool × Background α :=
  readUntil done (if anyTime then b.backlog else 0) b

def calls (b : Background α) : List (Call α) := b.journal.filterMap fun
  | .call c => some c
  | .log _ => none

def messages (b : Background α) : List LogMessage := b.journal.filterMap fun
  | .log m => some m
  | .call _ => none

end TreeTally.Background
