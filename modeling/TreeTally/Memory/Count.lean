import TreeTally.Amendment
import TreeTally.Memory.Basic
import TreeTally.Walk.Count

namespace TreeTally.Memory

/-- More steps than a finite count takes: a root's traversal lists each key at most once and meets
at most all keys in each, and an entry takes at most eight steps. The last argument leaves room for
an endless traversal to reach the event that interrupts it. -/
def effort (m : Memory) (roots events : Nat) : Nat :=
  let keys := m.nodes.keys.length
  8 * (roots * (keys * keys + 2) + events + 2)

def count (m : Memory) (amendments : List Amendment) (options : Options) (clock : Nat → Instant)
    (interrupt : Interrupt) (roots : List Path) : Option Report :=
  (Plan.ofOptions (m.fileSystem.amend amendments) options clock roots).count
    (m.effort roots.length interrupt.event) interrupt roots

end TreeTally.Memory
