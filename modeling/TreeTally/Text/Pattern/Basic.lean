import Std.Data.HashSet
import TreeTally.Text.CharSet

namespace TreeTally

inductive Edge
  | either
  | neither
  | left
  | right
  | leftHalf
  | rightHalf
  deriving DecidableEq, Hashable

/-- A condition on the place between two characters. Lines end with a line feed, or with a carriage
return, a line feed or both; words are of ASCII, or of all letters. -/
inductive Anchor
  | textStart
  | textEnd
  | lineStart (anyEnd : Bool)
  | lineEnd (anyEnd : Bool)
  | word (e : Edge) (ascii : Bool)
  deriving DecidableEq, Hashable

def isWordChar (c : Char) : Bool := c.isAlphanum || c == '_'

def Edge.holds (before after : Bool) : Edge → Bool
  | either => before != after
  | neither => before == after
  | left => !before && after
  | right => before && !after
  | leftHalf => !before
  | rightHalf => !after

/-- Whether it holds between these two characters; at an end of the text there is none. Words of
more than ASCII are never looked for. -/
def Anchor.holds (before after : Option Char) : Anchor → Bool
  | textStart => before.isNone
  | textEnd => after.isNone
  | lineStart false => before.all (· == '\n')
  | lineStart true => before.all fun c => c == '\n' || (c == '\r' && after != some '\n')
  | lineEnd false => after.all (· == '\n')
  | lineEnd true => after.all fun c => c == '\r' || (c == '\n' && before != some '\r')
  | word e _ => e.holds (before.any isWordChar) (after.any isWordChar)

/-- A row is a first part that is no row, and the others; branches alike. A set that is asked for as
one of ASCII differs from a set of any characters, even if it holds the same. -/
inductive Pattern
  | nothing
  | literal (l : List Char)
  | set (s : CharSet) (ascii : Bool)
  | anchor (a : Anchor)
  | times (p : Pattern) (least : Nat) (most : Option Nat) (greedy : Bool)
  | capture (number : Nat) (p : Pattern)
  | seq (p q : Pattern)
  | alt (p q : Pattern)
  deriving DecidableEq, Hashable

namespace Pattern

def skips (before after : Option Char) : Pattern → Bool
  | nothing => true
  | literal l => l.isEmpty
  | set _ _ => false
  | anchor a => a.holds before after
  | times p least _ _ => least == 0 || p.skips before after
  | capture _ p => p.skips before after
  | seq p q => p.skips before after && q.skips before after
  | alt p q => p.skips before after || q.skips before after

def followedBy (q p : Pattern) : Pattern := if p = nothing then q else seq p q

/-- What may remain to be matched once the character is read. Turns that match nothing may come
before the one that reads it, and then any number of turns can be left. -/
def rests (before : Option Char) (c : Char) : Pattern → List Pattern
  | nothing | anchor _ | literal [] | times _ _ (some 0) _ => []
  | literal (d :: l) => if c = d then [if l.isEmpty then nothing else literal l] else []
  | set s _ => if s.has c then [nothing] else []
  | times p least most greedy =>
      let least := if p.skips before (some c) then 0 else least - 1
      (p.rests before c).map (followedBy (times p least (most.map (· - 1)) greedy))
  | capture _ p => p.rests before c
  | seq p q =>
      (p.rests before c).map (followedBy q)
        ++ if p.skips before (some c) then q.rests before c else []
  | alt p q => p.rests before c ++ q.rests before c

def distinct (l : List Pattern) : List Pattern := (Std.HashSet.ofList l).toList

/-- Whether the text ahead completes a match under way, or holds one of its own. -/
def searchFrom (p : Pattern) (before : Option Char) (under : List Pattern) : List Char → Bool
  | [] => (p :: under).any (·.skips before none)
  | c :: r =>
      (p :: under).any (·.skips before (some c)) ||
        p.searchFrom (some c) (distinct ((p :: under).flatMap (·.rests before c))) r

def occursIn (p : Pattern) (text : List Char) : Bool := p.searchFrom none [] text

/-- The least number of characters of a match; nothing if no match is known to exist. -/
def minLength : Pattern → Option Nat
  | nothing | anchor _ => some 0
  | literal l => some l.length
  | set s _ => if s.isEmpty then none else some 1
  | times p least _ _ => p.minLength.map (· * least)
  | capture _ p => p.minLength
  | seq p q => p.minLength.bind fun m => q.minLength.map (m + ·)
  | alt p q => p.minLength.bind fun m => q.minLength.map (min m ·)

/-- The greatest number of characters of a match; nothing if there is no bound, or no match. -/
def maxLength : Pattern → Option Nat
  | nothing | anchor _ => some 0
  | literal l => some l.length
  | set s _ => if s.isEmpty then none else some 1
  | times p _ most _ => most.bind fun n => p.maxLength.map (· * n)
  | capture _ p => p.maxLength
  | seq p q => p.maxLength.bind fun m => q.maxLength.map (m + ·)
  | alt p q => p.maxLength.bind fun m => q.maxLength.map (max m ·)

def startsText : Pattern → Bool
  | anchor a => a = .textStart
  | times p least _ _ => decide (0 < least) && p.startsText
  | capture _ p => p.startsText
  | seq p q => p.startsText || (p.maxLength == some 0 && q.startsText)
  | alt p q => p.startsText && q.startsText
  | _ => false

def endsText : Pattern → Bool
  | anchor a => a = .textEnd
  | times p least _ _ => decide (0 < least) && p.endsText
  | capture _ p => p.endsText
  | seq p q => q.endsText || (q.maxLength == some 0 && p.endsText)
  | alt p q => p.endsText && q.endsText
  | _ => false

def needsLetters : Pattern → Bool
  | anchor (.word _ ascii) => !ascii
  | times p _ _ _ | capture _ p => p.needsLetters
  | seq p q | alt p q => p.needsLetters || q.needsLetters
  | _ => false

def parts : Pattern → List Pattern
  | seq p q => p :: q.parts
  | p => [p]

def choices : Pattern → List Pattern
  | alt p q => p :: q.choices
  | p => [p]

def ofSet (s : CharSet) (ascii : Bool) : Pattern :=
  match s.only? with
  | some c => literal [c]
  | none => set s (ascii || s.isEmpty)

def rowOf : List Pattern → Pattern
  | [] => nothing
  | [p] => p
  | p :: l => seq p (rowOf l)

def branchesOf : List Pattern → Pattern
  | [] => nothing
  | [p] => p
  | p :: l => alt p (branchesOf l)

def joinLiterals : List Pattern → List Pattern
  | [] => []
  | nothing :: l => joinLiterals l
  | literal a :: l => match joinLiterals l with
    | literal b :: l => literal (a ++ b) :: l
    | l => literal a :: l
  | p :: l => p :: joinLiterals l

def row (l : List Pattern) : Pattern := rowOf (joinLiterals (l.flatMap parts))

def letter? : Pattern → Option Char
  | literal [c] => some c
  | _ => none

def set? : Pattern → Option CharSet
  | set s _ => some s
  | _ => none

def collect (f : Pattern → Option α) : List Pattern → Option (List α)
  | [] => some []
  | p :: l => (f p).bind fun a => (collect f l).map (a :: ·)

def commonPrefix : List Pattern → List Pattern → List Pattern
  | p :: l, q :: m => if p = q then p :: commonPrefix l m else []
  | _, _ => []

/-- What a list of rows has in common at the start; nothing if one of them is no row. -/
def commonStart : List (List Pattern) → List Pattern
  | [] => []
  | l :: ls => if (l :: ls).all (1 < ·.length) then ls.foldl commonPrefix l else []

/-- Any of them. Characters make up a set, and so do sets; a start that all rows share is taken out,
at most so many times over. -/
def anyOfWithin : Nat → List Pattern → Pattern
  | n, l =>
      let l := l.flatMap choices
      if l.length < 2 then branchesOf l
      else match collect letter? l, collect set? l with
        | some cs, _ => ofSet (.ofRanges (cs.map fun c => (c.toNat, c.toNat))) false
        | none, some sets => ofSet (sets.foldl CharSet.union []) false
        | none, none =>
            let shared := commonStart (l.map parts)
            match n with
            | 0 => branchesOf l
            | n + 1 =>
                if shared.isEmpty then branchesOf l
                else
                  let others := l.map fun p => row (p.parts.drop shared.length)
                  row (shared ++ [anyOfWithin n others])

def size : Pattern → Nat
  | nothing | set _ _ | anchor _ => 1
  | literal l => l.length + 1
  | times p _ _ _ | capture _ p => p.size + 1
  | seq p q | alt p q => p.size + q.size + 1

def anyOf (l : List Pattern) : Pattern := anyOfWithin (branchesOf l).size l

/-- Of what can only be empty, one turn does as well as many; a single turn is the thing itself. -/
def repetition (p : Pattern) (least : Nat) (most : Option Nat) (greedy : Bool) : Pattern :=
  let empty := p.maxLength == some 0
  let least := if empty then min least 1 else least
  let most := if empty then some (min (most.getD 1) 1) else most
  if least = 0 ∧ most = some 0 then nothing
  else if least = 1 ∧ most = some 1 then p
  else times p least most greedy

end Pattern

end TreeTally
