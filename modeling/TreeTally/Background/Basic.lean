import TreeTally.Mailbox
import TreeTally.Walk.Count

namespace TreeTally

inductive JobState
  | created
  | running
  | succeeded
  | failed
  | cancelled
  deriving DecidableEq

def JobState.isTerminal : JobState → Bool
  | created | running => false
  | succeeded | failed | cancelled => true

/-- The worker waits inside the event of this number until the barrier is lifted; there is no event
of number 0. -/
structure Barrier where
  event : Nat := 0
  lifted : Bool := false

structure JobSpec where
  roots : List Path
  options : Options
  fs : FileSystem
  clock : Nat → Instant
  /-- The event that cancels the job's own token, if not 0. -/
  interrupt : Nat := 0
  barrier : Barrier := {}
  /-- More steps than the walk takes. -/
  effort : Nat

structure Job extends JobSpec where
  token : Nat
  state : JobState := .created
  observer : Option Nat := none
  /-- The owner has heard the end of the job. -/
  delivered : Bool := false
  /-- Latest first. -/
  heard : List Event := []

def Job.trace (j : Job) : List Event := j.heard.reverse

def Job.plan (j : Job) : Plan := .ofOptions j.fs j.options j.clock j.roots

/-- An observer of progress cancels its job when it is called for the `cancelAt`-th time. -/
structure Observer (α : Type) where
  label : Option α
  cancelAt : Nat
  calls : Nat := 0

/-- An errand looks at its token, waits if it is to be held, and looks again. -/
structure Errand (α : Type) where
  lane : Lane
  label : α
  token : Nat
  held : Bool
  delivered : Bool := false

/-- What a worker is at. A count remembers the observer it started with and the number of events
so far. -/
inductive Work
  | count (job : Nat) (observer : Option Nat) (seen : Nat) (walk : Walk)
  | errand (errand : Nat) (first : Option Bool)

inductive Note (α : Type)
  | mk (label : α) (next : List (Note α))

mutual

/-- How many notes will have been read when all that follows from this one is read. -/
def Note.weight {α : Type} : Note α → Nat
  | .mk _ next => Note.weights next + 1

def Note.weights {α : Type} : List (Note α) → Nat
  | [] => 0
  | n :: rest => n.weight + Note.weights rest

end

inductive Letter (α : Type)
  | note (n : Note α)
  | progress (job observer : Nat) (totals : Tally)
  | counted (job : Nat) (o : Outcome)
  | errandDone (errand : Nat) (first second : Bool)

def Letter.weight {α : Type} : Letter α → Nat
  | note n => n.weight
  | _ => 1

def Letter.weights {α : Type} : List (Letter α) → Nat
  | [] => 0
  | l :: rest => l.weight + Letter.weights rest

inductive Call (α : Type)
  | note (label : α)
  | progress (job : Nat) (label : Option α) (totals : Tally)
  | done (job : Nat) (o : Outcome) (state : JobState)
  | errandDone (errand : Nat) (label : α) (first second : Bool)

inductive Record (α : Type)
  | log (m : LogMessage)
  | call (c : Call α)

/-- Counts and errands wait in two lanes, each with one worker that takes them in turn; what the
workers have to say goes to the mailbox of the owner, who alone ever hears it. The labels are the
owner's own names for things. -/
structure Background (α : Type) where
  jobs : List Job := []
  errands : List (Errand α) := []
  observers : List (Observer α) := []
  tokens : List Bool := []
  defaultLane : List Work := []
  idleLane : List Work := []
  mailbox : Mailbox (Letter α) := {}
  /-- Latest first. -/
  records : List (Record α) := []

namespace Background

variable {α : Type}

def lane (b : Background α) : Lane → List Work
  | .default => b.defaultLane
  | .idle => b.idleLane

def setLane (b : Background α) (l : List Work) : Lane → Background α
  | .default => { b with defaultLane := l }
  | .idle => { b with idleLane := l }

def record (b : Background α) (r : Record α) : Background α := { b with records := r :: b.records }

def log (b : Background α) (m : LogMessage) : Background α := b.record (.log m)

def journal (b : Background α) : List (Record α) := b.records.reverse

def isCancelled (b : Background α) (token : Nat) : Bool := b.tokens[token]?.getD false

def cancelToken (b : Background α) (token : Nat) : Background α :=
  { b with tokens := b.tokens.set token true }

def newToken (b : Background α) : Background α := { b with tokens := b.tokens ++ [false] }

def modifyJob (b : Background α) (job : Nat) (f : Job → Job) : Background α :=
  { b with jobs := b.jobs.modify job f }

def post (b : Background α) (l : Letter α) : Background α := { b with mailbox := b.mailbox.post l }

def postResult (b : Background α) (l : Letter α) : Background α :=
  if b.mailbox.accepts then b.post l else b.log .resultDropped

def create (b : Background α) (spec : JobSpec) : Except Refusal (Background α) :=
  if spec.roots.isEmpty then .error .emptyRoots
  else
    let j : Job := { toJobSpec := spec, token := b.tokens.length }
    .ok { b.newToken with jobs := b.jobs ++ [j] }

/-- A later observer replaces an earlier one, but not for a count that has started. -/
def observe (b : Background α) (job : Nat) (label : Option α) (cancelAt : Nat) : Background α :=
  let o : Observer α := { label, cancelAt }
  { b with observers := b.observers ++ [o] }.modifyJob job fun j =>
    { j with observer := some b.observers.length }

def run (b : Background α) (job : Nat) : Except Refusal (Background α) :=
  match b.jobs[job]? with
  | none => .ok b
  | some j =>
      if j.state ≠ .created then .error .alreadyStarted
      else
        let b := (b.modifyJob job fun j => { j with state := .running }).log
          (.starting j.roots.length)
        let work := .count job j.observer 0 (.start j.options j.roots)
        .ok (b.setLane (b.lane j.options.lane ++ [work]) j.options.lane)

/-- Cancelling a job that has ended is allowed, and only sets its token. -/
def cancel (b : Background α) (job : Nat) : Background α :=
  match b.jobs[job]? with
  | none => b
  | some j =>
      let b := if j.state.isTerminal then b else b.log (.cancelling j.roots.length)
      b.cancelToken j.token

def liftBarrier (b : Background α) (job : Nat) : Background α :=
  b.modifyJob job fun j => { j with barrier := { j.barrier with lifted := true } }

def submit (b : Background α) (lane : Lane) (label : α) (held : Bool) (token : Option Nat) :
    Background α :=
  let (b, token) := match token with
    | some t => (b, t)
    | none => (b.newToken, b.tokens.length)
  let e : Errand α := { lane, label, token, held }
  let work := .errand b.errands.length none
  { b with errands := b.errands ++ [e] }.setLane (b.lane lane ++ [work]) lane

def letGo (b : Background α) (errand : Nat) : Background α :=
  { b with errands := b.errands.modify errand fun e => { e with held := false } }

def postNote (b : Background α) (n : Note α) : Background α := b.post (.note n)

def closeMailbox (b : Background α) : Background α := { b with mailbox := b.mailbox.close }

end Background

end TreeTally
