import TreeTally.Entry

namespace TreeTally

structure Amendment where
  path : Path
  kind : Option EntryKind := none
  size : Option Nat := none
  device : Option DeviceId := none
  statFault : Option Fault := none
  listFault : Option Fault := none

namespace Amendment

def find? (as : List Amendment) (p : Path) : Option Amendment := as.find? fun a => a.path.Same p

def applyInfo (a : Amendment) (i : EntryInfo) : EntryInfo :=
  ⟨a.kind.getD i.kind, a.size.getD i.size, a.device.getD i.device⟩

/-- A fault takes the place of the answer, without asking for it. -/
def amendStat (as : List Amendment) (p : Path) (answer : Except Fault EntryInfo) :
    Except Fault EntryInfo :=
  match find? as p with
  | none => answer
  | some a => match a.statFault with
    | some f => .error f
    | none => answer.map a.applyInfo

def amendListed (as : List Amendment) (p : Path) : Listed → Listed
  | .error f => .error f
  | .ok c => (amendStat as (p.join c.name) (.ok c.info)).map (⟨c.name, ·⟩)

def amendList (as : List Amendment) (p : Path) (answer : Except Fault (List Listed)) :
    Except Fault (List Listed) :=
  match (find? as p).bind (·.listFault) with
  | some f => .error f
  | none => answer.map (List.map (amendListed as p))

end Amendment

def FileSystem.amend (fs : FileSystem) (as : List Amendment) : FileSystem where
  stat p follow := Amendment.amendStat as p (fs.stat p follow)
  list p follow := Amendment.amendList as p (fs.list p follow)

end TreeTally
