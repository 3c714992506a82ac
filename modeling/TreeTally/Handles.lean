import TreeTally.Background.Owner
import TreeTally.Background.Worker
import TreeTally.Text.Utf8

namespace TreeTally

inductive Status
  | ok
  | error
  | invalidArgument
  | nullPointer
  | cancelled
  | alreadyStarted
  deriving DecidableEq

inductive HandleError
  | noThreads (why : String)
  | nullRoots
  | nullRoot
  | notUtf8
  | emptyRoot
  | nullJob
  | nullRunner
  | nullMailbox
  | nullCallback
  | refused (r : Refusal)

def HandleError.message : HandleError → String
  | noThreads why => "failed to start worker pool: " ++ why
  | nullRoots => "paths is null"
  | nullRoot => "path is null"
  | notUtf8 => "string is not valid UTF-8"
  | emptyRoot => "string is empty"
  | nullJob => "job is null"
  | nullRunner => "runner is null"
  | nullMailbox => "context is null"
  | nullCallback => "progress_cb is null"
  | refused .alreadyStarted => "job has already been started"
  | refused r => r.message

/-- A job that was not started yet. The callbacks of other programs are numbers here. -/
structure Draft extends JobSpec where
  callback : Option Nat := none
  cancelled : Bool := false

inductive Place
  | draft (d : Draft)
  | started (mailbox job : Nat)

structure Handle where
  place : Place
  freed : Bool := false

structure Office where
  work : Background Nat := {}
  callbacks : List (Option Nat) := []

/-- All that was handed out, whether it was freed or not. -/
structure Handles where
  runners : List Bool := []
  offices : List Office := []
  jobs : List Handle := []
  /-- What was logged of jobs that report to no mailbox, latest first. -/
  messages : List LogMessage := []
  lastError : Option HandleError := none

inductive RootTexts
  | null (length : Nat)
  | array (texts : List (Option (List UInt8)))

structure DoneNotice where
  status : Status
  totals : Option Tally
  message : Option String

inductive Callback
  | progress (callback : Nat) (totals : Tally)
  | done (callback : Nat) (notice : DoneNotice)

def withoutNul (s : String) : String := s.map fun c => if c = '\x00' then ' ' else c

def noticeOf : Outcome → DoneNotice
  | .ok t => ⟨.ok, some t, none⟩
  | .error (.cancelled t) => ⟨.cancelled, some t, none⟩
  | .error f => ⟨.error, none, some (withoutNul f.message)⟩

def Draft.enter (d : Draft) (b : Background Nat) : Except Refusal (Background Nat) := do
  let made ← b.create d.toJobSpec
  let observed := match d.callback with
    | some c => made.observe b.jobs.length (some c) 0
    | none => made
  (if d.cancelled then observed.cancelToken b.tokens.length else observed).run b.jobs.length

namespace Office

def open? (x : Office) : Option Office := if x.work.mailbox.closed then none else some x

def callback? (x : Office) : Call Nat → Option (Nat × Callback)
  | .progress job (some c) t => some (job, .progress c t)
  | .done job o _ => x.callbacks[job]?.join.map fun c => (job, .done c (noticeOf o))
  | _ => none

def called (x : Office) : List (Nat × Callback) := x.work.calls.filterMap x.callback?

end Office

namespace Handles

def succeed (s : Handles) : Handles := { s with lastError := none }

def fail (s : Handles) (e : HandleError) : Handles := { s with lastError := some e }

def lastErrorText (s : Handles) : Option String := s.lastError.map fun e => withoutNul e.message

def version : Nat × Nat × Nat := (1, 0, 0)

def runner? (s : Handles) (pointer : Option Nat) : Option Nat :=
  pointer.filter fun r => s.runners[r]?.getD false

def office? (s : Handles) (pointer : Option Nat) : Option (Nat × Office) := do
  let m ← pointer
  return (m, ← (← s.offices[m]?).open?)

def job? (s : Handles) (pointer : Option Nat) : Option (Nat × Place) := do
  let i ← pointer
  let h ← s.jobs[i]?
  if h.freed then none else return (i, h.place)

def modifyWork (s : Handles) (m : Nat) (f : Background Nat → Background Nat) : Handles :=
  { s with offices := s.offices.modify m fun x => { x with work := f x.work } }

def setPlace (s : Handles) (job : Nat) (p : Place) : Handles :=
  { s with jobs := s.jobs.modify job fun h => { h with place := p } }

def stateAt (s : Handles) : Place → JobState
  | .draft _ => .created
  | .started m job => (((s.offices[m]?).bind (·.work.jobs[job]?)).map (·.state)).getD .failed

def newRunner (s : Handles) (trouble : Option String) : Option Nat × Handles :=
  match trouble with
  | some why => (none, s.fail (.noThreads why))
  | none => (some s.runners.length, { s with runners := s.runners ++ [true] }.succeed)

/-- What a runner has begun goes on without it. -/
def freeRunner (s : Handles) (pointer : Option Nat) : Handles :=
  match s.runner? pointer with
  | none => s.succeed
  | some r => { s with runners := s.runners.set r false }.succeed

def newMailbox (s : Handles) : Nat × Handles :=
  let x : Office := {}
  (s.offices.length, { s with offices := s.offices ++ [x] }.succeed)

def freeMailbox (s : Handles) (pointer : Option Nat) : Handles :=
  match s.office? pointer with
  | none => s.succeed
  | some (m, _) => (s.modifyWork m (·.closeMailbox)).succeed

/-- Reads one letter. A caller that would rather wait makes this call once a letter is there. -/
def iterate (s : Handles) (pointer : Option Nat) : Bool × Handles :=
  match s.office? pointer with
  | none => (false, s.fail .nullMailbox)
  | some (m, x) => (x.work.iterate.1, (s.modifyWork m (·.iterate.2)).succeed)

def dispatch (s : Handles) (pointer : Option Nat) : Nat × Handles :=
  match s.office? pointer with
  | none => (0, s.fail .nullMailbox)
  | some (m, x) => (x.work.dispatch.1, (s.modifyWork m (·.dispatch.2)).succeed)

/-- A text ends before its first NUL. -/
def readRoot : Option (List UInt8) → Except HandleError Path
  | none => .error .nullRoot
  | some bytes =>
      match Utf8.decode? (bytes.takeWhile (· != 0)) with
      | none => .error .notUtf8
      | some [] => .error .emptyRoot
      | some l => .ok ⟨l⟩

def readRoots : RootTexts → Except HandleError (List Path)
  | .null 0 => .ok []
  | .null (_ + 1) => .error .nullRoots
  | .array texts => texts.mapM readRoot

structure JobDefaults where
  fs : FileSystem
  clock : Nat → Instant
  effort : Nat → Nat

def newJob (s : Handles) (defaults : JobDefaults) (texts : RootTexts) (follow : Bool) :
    Option Nat × Handles :=
  match readRoots texts with
  | .error e => (none, s.fail e)
  | .ok roots =>
      if roots.isEmpty then (none, s.fail (.refused .emptyRoots))
      else
        let d : Draft :=
          { roots, options := { follow }, fs := defaults.fs, clock := defaults.clock
            effort := defaults.effort roots.length }
        let h : Handle := { place := .draft d }
        (some s.jobs.length, { s with jobs := s.jobs ++ [h] }.succeed)

/-- A job that is given up while it runs gets cancelled. -/
def release (s : Handles) : Place → Handles
  | .draft _ => s
  | .started m job =>
      if s.stateAt (.started m job) = .running then
        s.modifyWork m fun b => (b.log .releasedWhileRunning).cancel job
      else s

def freeJob (s : Handles) (pointer : Option Nat) : Handles :=
  match s.job? pointer with
  | none => s.succeed
  | some (i, p) =>
      let s := s.release p
      { s with jobs := s.jobs.modify i fun h => { h with freed := true } }.succeed

def setProgress (s : Handles) (pointer callback : Option Nat) : Status × Handles :=
  match s.job? pointer with
  | none => (.nullPointer, s.fail .nullJob)
  | some (i, p) => match callback with
    | none => (.nullPointer, s.fail .nullCallback)
    | some c => match p with
      | .draft d => (.ok, (s.setPlace i (.draft { d with callback := some c })).succeed)
      | .started _ _ => (.alreadyStarted, s.fail (.refused .alreadyStarted))

def run (s : Handles) (pointer runner mailbox callback : Option Nat) : Status × Handles :=
  match s.job? pointer with
  | none => (.nullPointer, s.fail .nullJob)
  | some (i, p) => match s.runner? runner with
    | none => (.nullPointer, s.fail .nullRunner)
    | some _ => match s.office? mailbox with
      | none => (.nullPointer, s.fail .nullMailbox)
      | some (m, x) => match p with
        | .started _ _ => (.alreadyStarted, s.fail (.refused .alreadyStarted))
        | .draft d => match d.enter x.work with
          | .error r => (.error, s.fail (.refused r))
          | .ok work =>
              let y : Office := { work, callbacks := x.callbacks ++ [callback] }
              let s := { s with offices := s.offices.set m y }
              (.ok, (s.setPlace i (.started m x.work.jobs.length)).succeed)

def cancel (s : Handles) (pointer : Option Nat) : Handles :=
  match s.job? pointer with
  | none => s.succeed
  | some (i, .draft d) =>
      let s := { s with messages := .cancelling d.roots.length :: s.messages }
      (s.setPlace i (.draft { d with cancelled := true })).succeed
  | some (_, .started m job) => (s.modifyWork m (·.cancel job)).succeed

def state (s : Handles) (pointer : Option Nat) : JobState × Handles :=
  match s.job? pointer with
  | none => (.failed, s.fail .nullJob)
  | some (_, p) => (s.stateAt p, s.succeed)

end Handles

inductive Request
  | version
  | lastError
  | newRunner (trouble : Option String)
  | freeRunner (runner : Option Nat)
  | newMailbox
  | freeMailbox (mailbox : Option Nat)
  | iterate (mailbox : Option Nat)
  | dispatch (mailbox : Option Nat)
  | newJob (defaults : Handles.JobDefaults) (texts : RootTexts) (follow : Bool)
  | freeJob (job : Option Nat)
  | setProgress (job callback : Option Nat)
  | run (job runner mailbox callback : Option Nat)
  | cancel (job : Option Nat)
  | state (job : Option Nat)

inductive Reply
  | nothing
  | version (major minor patch : Nat)
  | text (t : Option String)
  | pointer (p : Option Nat)
  | flag (b : Bool)
  | number (n : Nat)
  | status (st : Status)
  | state (st : JobState)
  deriving DecidableEq

def Handles.answer (s : Handles) : Request → Reply × Handles
  | .version => (.version version.1 version.2.1 version.2.2, s)
  | .lastError => (.text s.lastErrorText, s)
  | .newRunner trouble => (s.newRunner trouble).map .pointer id
  | .freeRunner r => (.nothing, s.freeRunner r)
  | .newMailbox => s.newMailbox.map (.pointer ∘ some) id
  | .freeMailbox m => (.nothing, s.freeMailbox m)
  | .iterate m => (s.iterate m).map .flag id
  | .dispatch m => (s.dispatch m).map .number id
  | .newJob defaults texts follow => (s.newJob defaults texts follow).map .pointer id
  | .freeJob j => (.nothing, s.freeJob j)
  | .setProgress j c => (s.setProgress j c).map .status id
  | .run j r m c => (s.run j r m c).map .status id
  | .cancel j => (.nothing, s.cancel j)
  | .state j => (s.state j).map .state id

end TreeTally
