import TreeTally.Text.Case
import TreeTally.Text.Pattern.Tree

namespace TreeTally.Pattern

/-- The flags at some place. Tables of all characters are not at hand: without the flag for ASCII no
class can be named and no letter has another case, and with it nothing beyond ASCII can be in a set.
-/
structure Mode where
  anyCase : Bool := false
  manyLines : Bool := false
  dotAll : Bool := false
  anyEnd : Bool := false
  fewest : Bool := false
  ascii : Bool := false

namespace Mode

def set (m : Mode) (v : Bool) (c : Char) : Mode :=
  if c = 'i' then { m with anyCase := v }
  else if c = 'm' then { m with manyLines := v }
  else if c = 's' then { m with dotAll := v }
  else if c = 'R' then { m with anyEnd := v }
  else if c = 'U' then { m with fewest := v }
  else if c = 'u' then { m with ascii := !v }
  else m

def change (m : Mode) (v : Bool) : Flags → Mode
  | [] => m
  | c :: l => if c = '-' then m.change false l else (m.set v c).change v l

end Mode

def refuse (c : Cause) (place : Span) : Except Mistake α := .error ⟨c, place, none⟩

/-- A set, and whether it is known to hold with each letter its other case. -/
structure Found where
  chars : CharSet := []
  closed : Bool := true

namespace Found

def ofRanges (l : List CharRange) : Found := ⟨.ofRanges l, l.isEmpty⟩

def union (s t : Found) : Found :=
  if t.chars.isEmpty ∨ s.chars = t.chars then s
  else ⟨s.chars.union t.chars, s.closed && t.closed⟩

/-- With one more stretch nothing is known any longer. -/
def push (s : Found) (r : CharRange) : Found := ⟨CharSet.insert r s.chars, false⟩

def inter (s t : Found) : Found :=
  if s.chars.isEmpty then s
  else if t.chars.isEmpty then ⟨[], true⟩
  else ⟨s.chars.inter t.chars, s.closed && t.closed⟩

def diff (s t : Found) : Found :=
  if s.chars.isEmpty ∨ t.chars.isEmpty then s
  else ⟨s.chars.diff t.chars, s.closed && t.closed⟩

def symmDiff (s t : Found) : Found := (s.union t).diff (s.inter t)

def compl (s : Found) : Found := ⟨s.chars.compl, s.chars.isEmpty || s.closed⟩

def op (s t : Found) : SetOp → Found
  | .inter => s.inter t
  | .diff => s.diff t
  | .symmDiff => s.symmDiff t

/-- Only a set that is closed, or ASCII, can be closed under the change of case. -/
def fold (m : Mode) (place : Span) (s : Found) : Except Mistake Found :=
  if !m.anyCase || s.closed then .ok s
  else if m.ascii then .ok ⟨s.chars.anyCase, true⟩
  else refuse .caseUnknown place

/-- Turned inside out, a set of ASCII would hold what is no text. -/
def foldNegate (m : Mode) (place : Span) (negated : Bool) (s : Found) : Except Mistake Found := do
  let s ← s.fold m place
  if negated then
    if m.ascii then refuse .noText place else return s.compl
  else return s

end Found

def Category.ranges : Category → List CharRange
  | digit => [(0x30, 0x39)]
  | blank => [(0x09, 0x0d), (0x20, 0x20)]
  | word => [(0x30, 0x39), (0x41, 0x5a), (0x5f, 0x5f), (0x61, 0x7a)]

def Category.find (name : Category) (m : Mode) (place : Span) (negated : Bool) :
    Except Mistake Found :=
  if !m.ascii then refuse .classUnknown place
  else if negated then refuse .noText place
  else .ok (.ofRanges name.ranges)

/-- Case, blanks and an "is" at the start make no difference to the name of a property. -/
def plainName (name : List Char) : List Char :=
  let bare := if lowerCase (name.take 2) = ['i', 's'] then name.drop 2 else name
  lowerCase (bare.filter fun c => c.toNat < 0x80 && c != ' ' && c != '_' && c != '-')

/-- These could be names of other properties too, and are taken as a value of the category alone. -/
def categoryNames : List String := ["cf", "sc", "lc"]

def findProperty (m : Mode) (place : Span) (name : List Char) : Except Mistake α :=
  if m.ascii then refuse .beyondAscii place
  else if categoryNames.any (·.toList == plainName name) then refuse .valueUnknown place
  else refuse .propertyUnknown place

def Letter.find (m : Mode) (l : Letter) : Except Mistake Char :=
  if m.ascii ∧ l.byByte ∧ 0x80 ≤ l.char.toNat then refuse .noText l.place else .ok l.char

def Letter.findInSet (m : Mode) (l : Letter) : Except Mistake Nat := do
  let c ← l.find m
  if m.ascii ∧ 0x80 ≤ c.toNat then refuse .beyondAscii l.place else return c.toNat

mutual

def SetTree.find (m : Mode) (s : Found) : SetTree → Except Mistake Found
  | .nothing _ => .ok s
  | .letter l => do
      let n ← l.findInSet m
      return s.push (n, n)
  | .range _ first last => do
      let a ← first.findInSet m
      return s.push (a, ← last.findInSet m)
  | .category place name negated => return s.union (← name.find m place negated)
  | .named place ranges negated =>
      return s.union (← (Found.ofRanges ranges).foldNegate m place negated)
  | .property place name => findProperty m place name
  | .set place negated body => do
      let t ← body.find m {}
      return s.union (← t.foldNegate m place negated)
  | .several _ items => findSets m s items
  | .op _ kind left right => do
      let a ← left.find m {}
      let b ← right.find m {}
      let b ← b.fold m right.place
      let a ← a.fold m left.place
      return s.union (a.op b kind)

def findSets (m : Mode) (s : Found) : List SetTree → Except Mistake Found
  | [] => .ok s
  | t :: l => do findSets m (← t.find m s) l

end

abbrev Meaning := StateT Mode (Except Mistake)

def Letter.pattern (l : Letter) : Meaning Pattern := do
  let m ← get
  let c ← l.find m
  if m.anyCase ∧ !m.ascii then refuse .caseUnknown l.place
  else if m.anyCase ∧ c.isAlpha then return ofSet (CharSet.single c).anyCase true
  else return literal [c]

def dotPattern (place : Span) : Meaning Pattern := do
  let m ← get
  let ends := (0x0a, 0x0a) :: if m.anyEnd then [(0x0d, 0x0d)] else []
  if m.ascii then refuse .noText place
  else if m.dotAll then return ofSet (CharSet.compl []) false
  else return ofSet (CharSet.compl (.ofRanges ends)) false

def Sign.anchor (m : Mode) : Sign → Anchor
  | lineStart => if m.manyLines then .lineStart m.anyEnd else .textStart
  | lineEnd => if m.manyLines then .lineEnd m.anyEnd else .textEnd
  | textStart => .textStart
  | textEnd => .textEnd
  | word e => .word e m.ascii

mutual

def Tree.pattern : Tree → Meaning Pattern
  | .nothing _ => return nothing
  | .flags _ changes => do
      modify (·.change true changes)
      return nothing
  | .letter l => l.pattern
  | .dot place => dotPattern place
  | .sign _ s => return anchor (s.anchor (← get))
  | .category place name negated => do
      let m ← get
      return ofSet (← name.find m place negated).chars m.ascii
  | .property place name => do findProperty (← get) place name
  | .set place negated body => do
      let m ← get
      return ofSet (← (← body.find m {}).foldNegate m place negated).chars m.ascii
  | .repeated _ body least most greedy => do
      let p ← body.pattern
      return repetition p least most (greedy != (← get).fewest)
  | .capture _ n body => do
      let m ← get
      let p ← body.pattern
      modify fun _ => m
      return capture n p
  | .group _ changes body => do
      let m ← get
      modify (·.change true changes)
      let p ← body.pattern
      modify fun _ => m
      return p
  | .row _ items => return row (← patterns items)
  | .branches _ items => return anyOf (← patterns items)

def patterns : List Tree → Meaning (List Pattern)
  | [] => return []
  | t :: l => do
      let p ← t.pattern
      return p :: (← patterns l)

end

end TreeTally.Pattern
