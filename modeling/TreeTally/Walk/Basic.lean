import TreeTally.Entry
import TreeTally.Log
import TreeTally.Options

namespace TreeTally

/-- What can be observed of a walk from the file system's side and the caller's. -/
inductive Event
  | stat (path : Path)
  | list (path : Path)
  | child (folder : Path) (name : List Char)
  | bad (folder : Path) (fault : Fault)
  | finish (folder : Path)
  | progress (totals : Tally)

inductive Signal
  | event (e : Event)
  | log (m : LogMessage)

/-- What stays fixed during a walk. The clock gives the instants in the order they are read. -/
structure Plan where
  fs : FileSystem
  options : Options
  clock : Nat → Instant
  /-- There is but one root, so that failing to list it fails the count. -/
  lone : Bool

structure Frame where
  path : Path
  device : DeviceId
  rest : List Listed

inductive Ending
  | outcome (o : Outcome)
  /-- The next report would have been due past the end of the clock. -/
  | clockOverrun

inductive Stage
  | start
  /-- At an entry; a root comes without metadata. -/
  | visit (path : Path) (info : Option EntryInfo)
  | inspect (path : Path) (answer : Except Fault EntryInfo)
  | opened (path : Path) (device : DeviceId) (answer : Except Fault (List Listed))
  | refused (path : Path) (fault : Fault)
  | pull
  | received (folder : Path) (entry : Listed)
  | leave
  | closing
  | done (e : Ending)

/-- A listing is asked for its next entry without a look at the token. -/
def Stage.readsToken : Stage → Bool
  | pull | done _ => false
  | _ => true

structure Walk where
  stage : Stage
  frames : List Frame
  roots : List Path
  tally : Tally
  throttle : Throttle
  readings : Nat

namespace Walk

def start (options : Options) (roots : List Path) : Walk :=
  { stage := .start, frames := [], roots, tally := {}, throttle := ⟨options.interval, none⟩,
    readings := 0 }

def finished? (w : Walk) : Option Ending :=
  match w.stage with
  | .done e => some e
  | _ => none

def resume (w : Walk) : Walk :=
  match w.frames, w.roots with
  | _ :: _, _ => { w with stage := .pull }
  | [], r :: rs => { w with stage := .visit r none, roots := rs }
  | [], [] => { w with stage := .closing }

def stop (w : Walk) (o : Outcome) : Walk := { w with stage := .done (.outcome o) }

def cancel (w : Walk) : Walk := w.stop (.error (.cancelled w.tally))

/-- Entries on another device than their root's are passed over. -/
def inspect (P : Plan) (w : Walk) (path : Path) (info : EntryInfo) : Walk × Option Signal :=
  let home := (w.frames.head?.map (·.device)).getD info.device
  if home ≠ info.device then (w.resume, some (.log (.otherDevice path)))
  else if info.kind = .folder then
    ({ w with stage := .opened path home (P.fs.list path P.options.follow) },
      some (.event (.list path)))
  else ({ w with tally := w.tally.addFile info.size }.resume, none)

def opened (P : Plan) (w : Walk) (path : Path) (device : DeviceId) :
    Except Fault (List Listed) → Walk × Option Signal
  | .ok entries =>
      ({ w with stage := .pull, frames := ⟨path, device, entries⟩ :: w.frames,
                tally := w.tally.addFolder }, none)
  | .error f =>
      let w := { w with tally := w.tally.addUnreadable }
      if w.frames.isEmpty ∧ P.lone then ({ w with stage := .refused path f }, none)
      else ({ w with stage := .leave }, some (.log (.unreadableFolder path f)))

def pull (w : Walk) : Walk × Option Signal :=
  match w.frames with
  | [] => (w.resume, none)
  | ⟨path, _, []⟩ :: fs => ({ w with stage := .leave, frames := fs }, some (.event (.finish path)))
  | ⟨path, device, e :: rest⟩ :: fs =>
      ({ w with stage := .received path e, frames := ⟨path, device, rest⟩ :: fs },
        some (.event (match e with
          | .ok c => .child path c.name
          | .error f => .bad path f)))

def leave (P : Plan) (w : Walk) : Walk × Option Signal :=
  match w.throttle.ready? (P.clock w.readings) with
  | (none, _) => ({ w with stage := .done .clockOverrun }, none)
  | (some report, throttle) =>
      ({ w with throttle, readings := w.readings + 1 }.resume,
        if report then some (.event (.progress w.tally)) else none)

def proceed (P : Plan) (w : Walk) : Walk × Option Signal :=
  match w.stage with
  | .start => (w.resume, none)
  | .visit path none =>
      ({ w with stage := .inspect path (P.fs.stat path P.options.follow) },
        some (.event (.stat path)))
  | .visit path (some info) => ({ w with stage := .inspect path (.ok info) }, none)
  | .inspect path (.ok info) => w.inspect P path info
  | .inspect path (.error f) | .refused path f => (w.stop (.error (.unreadable path f)), none)
  | .opened path device answer => w.opened P path device answer
  | .pull => w.pull
  | .received folder (.ok c) => ({ w with stage := .visit (folder.join c.name) (some c.info) }, none)
  | .received folder (.error f) => ({ w with stage := .pull }, some (.log (.skippedEntry folder f)))
  | .leave => w.leave P
  | .closing => (w.stop (.ok w.tally), some (.event (.progress w.tally)))
  | .done _ => (w, none)

/-- A step reads the token at most once, before anything else, and sends at most one signal, after
everything else, so that whoever drives the walk may hold or cancel it between any two things that
can be seen. -/
def step (P : Plan) (cancelled : Bool) (w : Walk) : Walk × Option Signal :=
  if cancelled && w.stage.readsToken then (w.cancel, none) else w.proceed P

end Walk

namespace Event

def progress? : Event → Option Tally
  | progress t => some t
  | _ => none

end Event

end TreeTally
