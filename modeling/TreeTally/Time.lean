namespace TreeTally

def nanosPerSecond : Nat := 1000000000

structure Duration where
  nanos : Nat
  deriving DecidableEq

namespace Duration

def ofSeconds (s : Nat) : Duration := ⟨s * nanosPerSecond⟩

def ofMillis (ms : Nat) : Duration := ⟨ms * 1000000⟩

end Duration

structure Instant where
  nanos : Int
  deriving DecidableEq

namespace Instant

def overrunText : String := "overflow when adding duration to instant"

/-- The first reading past the end of the clock, where the seconds need a 64th bit. -/
def limit : Int := 9223372036854775808 * nanosPerSecond

def add? (t : Instant) (d : Duration) : Option Instant :=
  if t.nanos + d.nanos < limit then some ⟨t.nanos + d.nanos⟩ else none

instance : LE Instant := ⟨fun a b => a.nanos ≤ b.nanos⟩

instance (a b : Instant) : Decidable (a ≤ b) := inferInstanceAs (Decidable (a.nanos ≤ b.nanos))

end Instant

end TreeTally
