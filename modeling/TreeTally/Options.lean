import TreeTally.Throttle

namespace TreeTally

/-- Where background work runs. Counts idle on a lane of their own, so that they never take the
worker that someone waits for. -/
inductive Lane
  | default
  | idle
  deriving DecidableEq

structure Options where
  follow : Bool := false
  interval : Duration := Throttle.defaultInterval
  lane : Lane := .idle

end TreeTally
