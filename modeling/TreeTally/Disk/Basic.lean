import TreeTally.Entry

namespace TreeTally

abbrev Location := List (List Char)

/-- How much room a folder takes is up to the system that keeps it. -/
inductive DiskNode
  | folder (size : Nat)
  | file (size : Nat)
  | link (target : List Char)
  /-- A pipe, a socket or a device. -/
  | special (size : Nat)

/-- The root is always there. Nodes keep the order in which they were made. -/
structure Disk where
  rootSize : Nat := 0
  nodes : List (Location × DiskNode) := []
  volumes : List (Location × DeviceId) := []
  current : Location := []

namespace DiskNode

def kind : DiskNode → EntryKind
  | folder _ => .folder
  | file _ => .file
  | link _ => .link
  | special _ => .other

def size : DiskNode → Nat
  | folder n | file n | special n => n
  | link target => (String.ofList target).utf8ByteSize

end DiskNode

namespace Disk

def node? (d : Disk) (l : Location) : Option DiskNode :=
  if l.isEmpty then some (.folder d.rootSize) else (d.nodes.find? fun e => e.1 == l).map Prod.snd

def isFolder (d : Disk) (l : Location) : Bool :=
  match d.node? l with
  | some (.folder _) => true
  | _ => false

/-- The volume that starts nearest above a location. -/
def deviceOf (d : Disk) (l : Location) : DeviceId :=
  ((List.range (l.length + 1)).reverse.findSome? fun n =>
    (d.volumes.find? fun v => v.1 == l.take n).map Prod.snd).getD ⟨""⟩

def info (d : Disk) (l : Location) (n : DiskNode) : EntryInfo := ⟨n.kind, n.size, d.deviceOf l⟩

def childNames (d : Disk) (l : Location) : List (List Char) :=
  d.nodes.filterMap fun e => match e.1.getLast? with
    | some name => if e.1 = l ++ [name] then some name else none
    | none => none

def linkLimit : Nat := 40

/-- The bytes of a path and its terminator. -/
def pathLimit : Nat := 4096

def nameLimit : Nat := 255

/-- Walks over the pieces of a path from a location. A piece, even an empty one, can only follow a
folder. A link is handed to `jump` with the pieces that are left, save a last one that is not to be
followed. -/
def scan (d : Disk) (follow : Bool) (jump : Location → List (List Char) → Except SystemCode Location) :
    Location → List (List Char) → Except SystemCode Location
  | l, [] => .ok l
  | l, p :: rest =>
      if !d.isFolder l then .error .notDirectory
      else if p = [] ∨ p = ['.'] then d.scan follow jump l rest
      else if p = ['.', '.'] then d.scan follow jump l.dropLast rest
      else if nameLimit < (String.ofList p).utf8ByteSize then .error .nameTooLong
      else match d.node? (l ++ [p]) with
        | none => .error .noEntry
        | some (.link target) =>
            if rest.isEmpty ∧ !follow then .ok (l ++ [p])
            else jump (if target.head? = some '/' then [] else l) (piecesAt '/' target ++ rest)
        | some _ => d.scan follow jump (l ++ [p]) rest

def walk (d : Disk) (follow : Bool) : Nat → Location → List (List Char) → Except SystemCode Location
  | 0 => d.scan follow fun _ _ => .error .linkLoop
  | links + 1 => d.scan follow (d.walk follow links)

def find (d : Disk) (p : Path) (follow : Bool) : Except Fault Location :=
  if p.chars.contains '\x00' then .error .nulInName
  else if p.chars = [] then .error (.system .noEntry)
  else if pathLimit ≤ p.display.utf8ByteSize then .error (.system .nameTooLong)
  else
    let start := if p.chars.head? = some '/' then [] else d.current
    (d.walk follow linkLimit start (piecesAt '/' p.chars)).mapError .system

end Disk

end TreeTally
