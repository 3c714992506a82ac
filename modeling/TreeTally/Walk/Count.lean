import TreeTally.Walk.Basic

namespace TreeTally

/-- When the token gets cancelled. Events are numbered from 1, so number 0 means never. -/
structure Interrupt where
  before : Bool := false
  event : Nat := 0

structure Report where
  signals : List Signal
  ending : Ending

def Plan.ofOptions (fs : FileSystem) (options : Options) (clock : Nat → Instant)
    (roots : List Path) : Plan :=
  ⟨fs, options, clock, decide (roots.length < 2)⟩

namespace Walk

/-- Drives a walk that has sent `seen` events; nothing if the fuel does not last. -/
def drive (P : Plan) (event : Nat) : Nat → Bool → Nat → Walk → Option Report
  | 0, _, _, _ => none
  | fuel + 1, cancelled, seen, w =>
      match w.finished? with
      | some e => some ⟨[], e⟩
      | none =>
          match w.step P cancelled with
          | (w, none) => w.drive P event fuel cancelled seen
          | (w, some (.log m)) =>
              (w.drive P event fuel cancelled seen).map fun r => ⟨.log m :: r.signals, r.ending⟩
          | (w, some (.event e)) =>
              (w.drive P event fuel (cancelled || seen + 1 == event) (seen + 1)).map fun r =>
                ⟨.event e :: r.signals, r.ending⟩

end Walk

def Plan.count (P : Plan) (fuel : Nat) (interrupt : Interrupt) (roots : List Path) :
    Option Report :=
  (Walk.start P.options roots).drive P interrupt.event fuel interrupt.before 0

namespace Report

def events (r : Report) : List Event := r.signals.filterMap fun
  | .event e => some e
  | .log _ => none

def snapshots (r : Report) : List Tally := r.events.filterMap Event.progress?

end Report

end TreeTally
