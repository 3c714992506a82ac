namespace TreeTally

structure Tally where
  bytes : Nat := 0
  files : Nat := 0
  folders : Nat := 0
  unreadable : Nat := 0
  deriving DecidableEq

namespace Tally

def maxBytes : Nat := 18446744073709551615

/-- The byte total stops at its limit instead of wrapping. -/
def addFile (t : Tally) (size : Nat) : Tally :=
  { t with bytes := min (t.bytes + size) maxBytes, files := t.files + 1 }

def addFolder (t : Tally) : Tally := { t with folders := t.folders + 1 }

def addUnreadable (t : Tally) : Tally := { t with unreadable := t.unreadable + 1 }

def isLowerBound (t : Tally) : Bool := decide (0 < t.unreadable)

end Tally

end TreeTally
