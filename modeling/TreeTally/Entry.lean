import TreeTally.Fault

namespace TreeTally

inductive EntryKind
  | folder
  | file
  | link
  | other
  deriving DecidableEq

/-- Entries with equal ids lie on the same device; an empty id says that none is known. -/
structure DeviceId where
  name : String
  deriving DecidableEq

structure EntryInfo where
  kind : EntryKind
  size : Nat
  device : DeviceId
  deriving DecidableEq

structure Child where
  name : List Char
  info : EntryInfo

abbrev Listed := Except Fault Child

/-- The flag of both questions says whether links are followed. -/
structure FileSystem where
  stat : Path → Bool → Except Fault EntryInfo
  list : Path → Bool → Except Fault (List Listed)

end TreeTally
