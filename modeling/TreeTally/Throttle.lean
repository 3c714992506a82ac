import TreeTally.Time

namespace TreeTally

/-- The first question only arms a throttle; from then on it agrees once an interval has passed
since the last time it agreed or was armed. -/
structure Throttle where
  interval : Duration
  next : Option Instant := none
  deriving DecidableEq

namespace Throttle

def defaultInterval : Duration := .ofMillis 250

def reset (t : Throttle) : Throttle := { t with next := none }

/-- Arms the throttle and answers; with no answer when the next instant would lie past the end of the
clock. -/
def arm (t : Throttle) (now : Instant) (report : Bool) : Option Bool × Throttle :=
  match now.add? t.interval with
  | none => (none, t)
  | some next => (some report, { t with next := some next })

def ready? (t : Throttle) (now : Instant) : Option Bool × Throttle :=
  match t.next with
  | none => t.arm now false
  | some next => if next ≤ now then t.arm now true else (some false, t)

end Throttle

end TreeTally
