import TreeTally.Amendment
import TreeTally.Disk.Files
import TreeTally.Walk.Count

namespace TreeTally.Disk

def count (d : Disk) (amendments : List Amendment) (options : Options) (clock : Nat → Instant)
    (interrupt : Interrupt) (roots : List Path) : Option Report :=
  (Plan.ofOptions (d.fileSystem.amend amendments) options clock roots).count
    (d.effort roots.length interrupt.event) interrupt roots

end TreeTally.Disk
