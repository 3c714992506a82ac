import TreeTally.Text.Pattern.Basic
import TreeTally.Text.Utf8.Ranges

namespace TreeTally.Pattern

def stateBytes : Nat := 32

def moveBytes : Nat := 8

def linkBytes : Nat := 4

def memoryLimit : Nat := 10485760

/-- An automaton as far as it is built. It reads bytes, and has a state for each byte of a literal,
one with a table for each choice of bytes, and one with a list for each choice of ways. -/
structure Program where
  states : Nat := 0
  tables : Nat := 0

abbrev Build := StateT Program Option

def Program.memory (p : Program) : Nat := p.states * stateBytes + p.tables

def grow (states tables : Nat) : Build Unit := do
  let p ← get
  let p : Program := ⟨p.states + states, p.tables + tables⟩
  if p.memory ≤ memoryLimit then modify fun _ => p else failure

def addState (tables : Nat) : Build Nat := do
  let n := (← get).states
  grow 1 tables
  return n

def link (n : Nat) : Build Unit := grow 0 (n * linkBytes)

/-- A part leads on from its last state. If that is a choice of ways, it takes a link more. -/
abbrev ByChoice := Bool

def leave (last : ByChoice) : Build Unit := if last then link 1 else pure ()

abbrev Move := Nat × Nat × Nat

def hashStart : UInt64 := 14695981039346656037

def hashFactor : UInt64 := 1099511628211

def hashOf (places : Nat) (l : List Nat) : Nat :=
  (l.foldl (fun h n => (h ^^^ n.toUInt64) * hashFactor) hashStart).toNat % places

/-- A table with a bounded number of places; what comes to a place takes it over. -/
structure Memory (α : Type) where
  entries : List (Nat × α × Nat) := []

namespace Memory

variable {α : Type} [DecidableEq α]

def find? (m : Memory α) (place : Nat) (key : α) : Option Nat :=
  match m.entries.find? (·.1 == place) with
  | some (_, k, n) => if k = key then some n else none
  | none => none

def store (m : Memory α) (place : Nat) (key : α) (n : Nat) : Memory α :=
  ⟨(place, key, n) :: m.entries.filter (·.1 != place)⟩

end Memory

def forwardPlaces : Nat := 10000

def backwardPlaces : Nat := 1000

def stateFor (m : Memory (List Move)) (moves : List Move) : Build (Nat × Memory (List Move)) := do
  let place := hashOf forwardPlaces (moves.flatMap fun t => [t.1, t.2.1, t.2.2])
  match m.find? place moves with
  | some n => return (n, m)
  | none =>
      let n ← addState (moves.length * moveBytes)
      return (n, m.store place moves n)

def gather : List (List Utf8.ByteRange) → List (Utf8.ByteRange × List (List Utf8.ByteRange))
  | [] => []
  | [] :: l => gather l
  | (r :: t) :: l => match gather l with
    | (s, ts) :: gs => if r = s then (r, t :: ts) :: gs else (r, [t]) :: (s, ts) :: gs
    | [] => [(r, [t])]

mutual

def forwardState (target : Nat) :
    Nat → Memory (List Move) → List (List Utf8.ByteRange) → Build (Nat × Memory (List Move))
  | 0, m, _ => return (target, m)
  | n + 1, m, l => do
      if l.all List.isEmpty then return (target, m)
      let (moves, m) ← forwardMoves target n m (gather l)
      stateFor m moves

def forwardMoves (target n : Nat) (m : Memory (List Move)) :
    List (Utf8.ByteRange × List (List Utf8.ByteRange)) →
      Build (List Move × Memory (List Move))
  | [] => return ([], m)
  | (r, ts) :: gs => do
      let (state, m) ← forwardState target n m ts
      let (moves, m) ← forwardMoves target n m gs
      return ((r.1, r.2, state) :: moves, m)

end

def longestForm : Nat := 4

def buildForward (s : CharSet) : Build ByChoice := do
  let target ← addState 0
  let _ ← forwardState target longestForm {} (Utf8.sequences s)
  return false

def backwardState (m : Memory Move) (state : Nat) :
    List Utf8.ByteRange → Build (Nat × Memory Move)
  | [] => return (state, m)
  | r :: l => do
      let key : Move := (state, r.1, r.2)
      let place := hashOf backwardPlaces [state, r.1, r.2]
      match m.find? place key with
      | some n => backwardState m n l
      | none =>
          let n ← addState 0
          backwardState (m.store place key n) n l

def backwardStates (target : Nat) (m : Memory Move) : List (List Utf8.ByteRange) → Build Unit
  | [] => return
  | l :: ls => do
      let (_, m) ← backwardState m target l
      link 1
      backwardStates target m ls

def buildBackward (s : CharSet) : Build ByChoice := do
  let _ ← addState 0
  let target ← addState 0
  backwardStates target {} (Utf8.sequences s)
  return false

inductive Direction
  | forward
  | backward

/-- A set of ASCII needs but one table. -/
def buildSet (d : Direction) (s : CharSet) : Build ByChoice := do
  if s.isAscii then
    let _ ← addState 0
    let _ ← addState (s.length * moveBytes)
    return false
  else match d with
    | .forward => buildForward s
    | .backward => buildBackward s

def bytesOf (l : List Char) : List Nat := l.flatMap fun c => Utf8.encode c.toNat

def cutEmpty : List (List Nat) → List (List (List Nat))
  | [] => [[]]
  | [] :: l => [] :: cutEmpty l
  | t :: l => match cutEmpty l with
    | [] => [[t]]
    | s :: ss => (t :: s) :: ss

def splitFirst (l : List (List Nat)) : List (List (List Nat)) :=
  (l.filterMap List.head?).eraseDups.map fun b =>
    l.filterMap fun t => if t.head? = some b then some t.tail else none

/-- Texts that begin alike share states, as long as no text ends in between. -/
def buildTrie : Nat → List (List Nat) → Build Unit
  | 0, _ => return
  | n + 1, l => do
      let sections := cutEmpty (dropRepeats l)
      for s in sections do
        if !s.isEmpty then
          let parts := splitFirst s
          for p in parts do
            if !p.all List.isEmpty then buildTrie n p
          grow 1 (if parts.length = 1 then 0 else parts.length * moveBytes)
      grow 1 ((sections.length - 1 + sections.countP (!·.isEmpty)) * linkBytes)
where
  dropRepeats : List (List Nat) → List (List Nat)
    | [] :: [] :: l => dropRepeats ([] :: l)
    | l => l

def literal? : Pattern → Option (List Char)
  | literal l => some l
  | _ => none

def buildLiterals (d : Direction) (l : List (List Char)) : Build ByChoice := do
  let _ ← addState 0
  let texts := l.map fun t => match d with
    | .forward => bytesOf t
    | .backward => (bytesOf t).reverse
  buildTrie ((texts.map List.length).foldl max 0) texts
  return false

def buildCopies (one : Build ByChoice) (last : ByChoice) : Nat → Build ByChoice
  | 0 => return last
  | n + 1 => do
      let l ← one
      leave last
      buildCopies one l n

def buildExactly (one : Build ByChoice) : Nat → Build ByChoice
  | 0 => do
      let _ ← addState 0
      return false
  | n + 1 => do buildCopies one (← one) n

def buildOptional (one : Build ByChoice) (last : ByChoice) : Nat → Build ByChoice
  | 0 => return last
  | n + 1 => do
      let _ ← addState 0
      let l ← one
      leave last
      link 2
      buildOptional one l n

def buildAtLeast (one : Build ByChoice) (takesText : Bool) : Nat → Build ByChoice
  | 0 =>
      if takesText then do
        let _ ← addState 0
        leave (← one)
        link 1
        return true
      else do
        leave (← one)
        grow 3 (4 * linkBytes)
        return false
  | 1 => do
      leave (← one)
      grow 1 linkBytes
      return true
  | n + 2 => do
      let first ← buildExactly one (n + 1)
      let last ← one
      leave first
      leave last
      grow 1 linkBytes
      return true

def buildTimes (one : Build ByChoice) (takesText : Bool) (least : Nat) :
    Option Nat → Build ByChoice
  | none => buildAtLeast one takesText least
  | some most => do
      if least = 0 ∧ most = 1 then
        let _ ← addState 0
        let last ← one
        leave last
        grow 1 (2 * linkBytes)
        return false
      else if least = most then buildExactly one least
      else
        let first ← buildExactly one least
        let _ ← addState 0
        leave (← buildOptional one first (most - least))
        return false

/-- The place among branches, of which the first of all is the whole of them. -/
def linkBranch (n : Nat) (last : ByChoice) : Build Unit := do
  if n = 1 then grow 2 0
  leave last
  link 1

/-- Groups are marked only when reading forwards. A pattern is built as a part of a row or, with a
number, as the branches from that one on. -/
def build (d : Direction) : Option Nat → Pattern → Build ByChoice
  | branch, p => do
      let last ← match p with
        | nothing | anchor _ => do
            let _ ← addState 0
            pure false
        | literal l => do
            grow (bytesOf l).length 0
            pure false
        | set s _ => buildSet d s
        | times p least most _ =>
            buildTimes (build d none p) (p.minLength.any (0 < ·)) least most
        | capture _ p => match d with
            | .forward => do
                let _ ← addState 0
                let last ← build d none p
                let _ ← addState 0
                leave last
                pure false
            | .backward => build d none p
        | seq p q => match d with
            | .forward => do
                let first ← build d none p
                let last ← build d none q
                leave first
                pure last
            | .backward => do
                let first ← build d none q
                let last ← build d none p
                leave first
                pure last
        | alt p q =>
            match branch, collect literal? (choices (alt p q)) with
            | none, some l => buildLiterals d l
            | _, _ => do
                let n := branch.getD 0
                linkBranch n (← build d none p)
                let _ ← build d (some (n + 1)) q
                pure false
      match branch, p with
      | some _, alt _ _ => return false
      | some n, _ => do
          linkBranch n last
          return false
      | none, _ => return last

/-- Unless the text has to begin with it, a match can be preceded by any bytes. -/
def buildWhole (d : Direction) (p : Pattern) : Build Unit := do
  let bound := match d with
    | .forward => p.startsText
    | .backward => p.endsText
  if bound then grow 1 0 else grow 3 (moveBytes + 2 * linkBytes)
  leave (← build d none (match d with
    | .forward => capture 0 p
    | .backward => p))
  grow 1 0

def fits (d : Direction) (p : Pattern) : Bool := ((buildWhole d p).run {}).isSome

end TreeTally.Pattern
