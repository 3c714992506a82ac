import TreeTally.Disk.Basic
import TreeTally.Outcome

namespace TreeTally.Disk

def queryAs (d : Disk) (p : Path) (follow : Bool) : Except Fault EntryInfo := do
  let l ← d.find p follow
  match d.node? l with
  | some n => return d.info l n
  | none => throw (.system .noEntry)

/-- A link that leads nowhere is described itself. -/
def stat (d : Disk) (p : Path) (follow : Bool) : Except Fault EntryInfo :=
  if follow then
    match d.queryAs p true with
    | .ok i => .ok i
    | .error _ => d.queryAs p false
  else d.queryAs p false

/-- Opening a folder follows links whatever was asked for. -/
def openFolder (d : Disk) (p : Path) : Except Fault Location := do
  let l ← d.find p true
  unless d.isFolder l do throw (.system .notDirectory)
  return l

/-- A child of an open folder can always be described; its link is followed where that works. -/
def listed (d : Disk) (p : Path) (l : Location) (follow : Bool) (name : List Char) : Listed :=
  let itself : Listed := match d.node? (l ++ [name]) with
    | some n => .ok ⟨name, d.info (l ++ [name]) n⟩
    | none => .error (.system .noEntry)
  if follow then
    match d.queryAs (p.join name) true with
    | .ok i => .ok ⟨name, i⟩
    | .error _ => itself
  else itself

def list (d : Disk) (p : Path) (follow : Bool) : Except Fault (List Listed) := do
  let l ← d.openFolder p
  return (d.childNames l).map (d.listed p l follow)

def fileSystem (d : Disk) : FileSystem := ⟨d.stat, d.list⟩

/-- More steps than a count takes. A path below a root that can be listed has fewer characters than
`pathLimit`, two at least for each name, and no folder holds more names than the disk has nodes. -/
def effort (d : Disk) (roots events : Nat) : Nat :=
  8 * (roots * Nat.pow (d.nodes.length + 2) (pathLimit / 2 + 2) + events + 2)

structure FolderEntry where
  path : Path
  name : List Char
  kind : EntryKind
  size : Nat

def notedKind (d : Disk) (l : Location) (name : List Char) : EntryKind :=
  ((d.node? (l ++ [name])).map DiskNode.kind).getD .other

/-- The kind is the one that the folder notes; the size is asked for by the whole path, and links are
not followed. -/
def folderEntry (d : Disk) (p : Path) (l : Location) (name : List Char) : Except Fault FolderEntry :=
  let path := p.join name
  match d.queryAs path false with
  | .ok i => .ok ⟨path, name, d.notedKind l name, i.size⟩
  | .error f => .error (.visiting path f)

def nameBefore (a b : List Char) : Bool := !decide (b.map Char.toNat < a.map Char.toNat)

/-- Describes entries one after the other. The token is read before each, and its readings are given in
turn. -/
def describeAll (d : Disk) (p : Path) (l : Location) :
    (Nat → Bool) → List (List Char) → Except Refusal (List FolderEntry)
  | _, [] => .ok []
  | cancelled, name :: names => do
      if cancelled 0 then throw .cancelled
      let e ← (d.folderEntry p l name).mapError .fault
      return e :: (← d.describeAll p l (fun k => cancelled (k + 1)) names)

/-- The children of a folder, by name. What cannot be read ends the listing, and so does the token, which
is read at the start and then before every entry. -/
def listFolder (d : Disk) (p : Path) (cancelled : Nat → Bool) :
    Except Refusal (List FolderEntry) := do
  if cancelled 0 then throw .cancelled
  let i ← (d.queryAs p true).mapError .fault
  unless i.kind = .folder do throw (.invalidArgument ("not a directory: " ++ p.display))
  let l ← (d.openFolder p).mapError .fault
  d.describeAll p l (fun k => cancelled (k + 1)) ((d.childNames l).mergeSort nameBefore)

end TreeTally.Disk
