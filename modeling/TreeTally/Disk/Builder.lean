import TreeTally.Disk.Basic

namespace TreeTally.Disk

def folderSize : Nat := 4096

/-- A machine with its process and device trees mounted, and an empty folder to work in. -/
def machine : Disk where
  rootSize := folderSize
  nodes := [(["proc".toList], .folder 0), (["dev".toList], .folder folderSize),
    (["dev".toList, "null".toList], .special 0), (["work".toList], .folder folderSize)]
  volumes := [([], ⟨"1"⟩), (["proc".toList], ⟨"2"⟩), (["dev".toList], ⟨"3"⟩)]
  current := ["work".toList]

def put (d : Disk) (l : Location) (n : DiskNode) : Disk :=
  if d.nodes.any fun e => e.1 == l then
    { d with nodes := d.nodes.map fun e => if e.1 == l then (l, n) else e }
  else { d with nodes := d.nodes ++ [(l, n)] }

def enter (d : Disk) (l : Location) (name : List Char) : Disk × Location :=
  if name = ['.', '.'] then (d, l.dropLast)
  else match d.node? (l ++ [name]) with
    | none => (d.put (l ++ [name]) (.folder folderSize), l ++ [name])
    | some (.link _) => (d, ((d.walk true linkLimit l [name]).toOption).getD (l ++ [name]))
    | some _ => (d, l ++ [name])

def enterAll (d : Disk) (l : Location) (names : List (List Char)) : Disk × Location :=
  names.foldl (fun (d, l) name => d.enter l name) (d, l)

def route (d : Disk) (p : Path) : Location × List (List Char) :=
  (if p.chars.head? = some '/' then [] else d.current,
    (piecesAt '/' p.chars).filter fun n => decide (n ≠ [] ∧ n ≠ ['.']))

def addFolder (d : Disk) (p : Path) : Disk :=
  let (l, names) := d.route p
  (d.enterAll l names).1

def add (d : Disk) (p : Path) (n : DiskNode) : Disk :=
  let (l, names) := d.route p
  match names.getLast? with
  | none => d
  | some name =>
      let (d, l) := d.enterAll l names.dropLast
      d.put (l ++ [name]) n

def addHardLink (d : Disk) (p target : Path) : Disk :=
  match ((d.find target false).toOption).bind d.node? with
  | some n => d.add p n
  | none => d

end TreeTally.Disk
