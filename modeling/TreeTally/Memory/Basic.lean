import TreeTally.Entry
import TreeTally.Path.Map

namespace TreeTally

inductive Content
  | folder
  | file (size : Nat)
  | link (target : Path)

structure Node where
  content : Content
  readable : Bool := true
  queryable : Bool := true

def Content.kind : Content → EntryKind
  | folder => .folder
  | file _ => .file
  | link _ => .link

def Content.size : Content → Nat
  | folder => 0
  | file n => n
  | link target => target.display.utf8ByteSize

/-- A tree that stages what a scratch folder cannot: entries on another device, folders that refuse
to be listed, entries whose metadata cannot be had. -/
structure Memory where
  device : DeviceId
  mounts : Path.Map DeviceId
  nodes : Path.Map Node

namespace Memory

def new (device : DeviceId) : Memory := ⟨device, .empty, .empty⟩

/-- The ancestors that have to exist, nearest first; the empty path is not one of them. -/
def enclosing (p : Path) : List Path := p.ancestors.tail.takeWhile fun q => !q.chars.isEmpty

def put (m : Memory) (p : Path) (n : Node) : Memory :=
  { m with nodes := ((enclosing p).foldl (·.insertNew · ⟨.folder, true, true⟩) m.nodes).insert p n }

def addFolder (m : Memory) (p : Path) : Memory := m.put p { content := .folder }

def addFile (m : Memory) (p : Path) (size : Nat) : Memory := m.put p { content := .file size }

def addLink (m : Memory) (p target : Path) : Memory := m.put p { content := .link target }

/-- A folder that starts another device, which extends down to the next mount. -/
def addMount (m : Memory) (p : Path) (d : DeviceId) : Memory :=
  let m := m.addFolder p
  { m with mounts := m.mounts.insert p d }

/-- An absent path becomes a folder first. -/
def markUnreadable (m : Memory) (p : Path) : Memory :=
  let m := if m.nodes.contains p then m else m.addFolder p
  { m with nodes := m.nodes.modify p fun n => { n with readable := false } }

/-- An absent path becomes an empty file first. -/
def markBroken (m : Memory) (p : Path) : Memory :=
  let m := if m.nodes.contains p then m else m.addFile p 0
  { m with nodes := m.nodes.modify p fun n => { n with queryable := false } }

def deviceOf (m : Memory) (p : Path) : DeviceId :=
  (p.ancestors.findSome? m.mounts.find?).getD m.device

def look (m : Memory) (p : Path) : Except Fault Node :=
  match m.nodes.find? p with
  | some n => .ok n
  | none => .error (.missing p)

/-- How many paths a chain of links may pass through, its end included. -/
def linkLimit : Nat := 40

def chase (m : Memory) (origin : Path) : Nat → Path → Except Fault Path
  | 0, _ => .error (.linkLoop origin)
  | steps + 1, p => do
      match (← m.look p).content with
      | .link target => if m.nodes.contains target then m.chase origin steps target else return p
      | _ => return p

/-- The path whose node describes the entry; a link that dangles is its own end. -/
def resolve (m : Memory) (p : Path) (follow : Bool) : Except Fault Path :=
  if follow then m.chase p linkLimit p else .ok p

def stat (m : Memory) (p : Path) (follow : Bool) : Except Fault EntryInfo := do
  unless (← m.look p).queryable do throw (.unqueryable p)
  let q ← m.resolve p follow
  let n ← m.look q
  return ⟨n.content.kind, n.content.size, m.deviceOf q⟩

def childKeys (m : Memory) (p : Path) : List Path :=
  m.nodes.keys.filter fun k => k.parent?.any fun q => q.Same p

def listed (m : Memory) (follow : Bool) (k : Path) : Listed :=
  (m.stat k follow).map (⟨k.fileName?.getD [], ·⟩)

def list (m : Memory) (p : Path) (follow : Bool) : Except Fault (List Listed) := do
  let q ← m.resolve p follow
  let n ← m.look q
  unless n.content.kind = .folder do throw (.notDirectory p)
  unless n.readable do throw (.denied p)
  return (m.childKeys q).map (m.listed follow)

def fileSystem (m : Memory) : FileSystem := ⟨m.stat, m.list⟩

end Memory

end TreeTally
