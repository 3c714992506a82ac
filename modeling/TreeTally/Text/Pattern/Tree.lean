import TreeTally.Text.Pattern.Basic
import TreeTally.Text.Pattern.Mistake

namespace TreeTally.Pattern

structure Letter where
  place : Span
  char : Char
  byByte : Bool := false

inductive Category
  | digit
  | blank
  | word

inductive Sign
  | lineStart
  | lineEnd
  | textStart
  | textEnd
  | word (e : Edge)

inductive SetOp
  | inter
  | diff
  | symmDiff

inductive SetTree
  | nothing (place : Span)
  | letter (l : Letter)
  | range (place : Span) (first last : Letter)
  | category (place : Span) (name : Category) (negated : Bool)
  | named (place : Span) (ranges : List (Nat × Nat)) (negated : Bool)
  | property (place : Span) (name : List Char)
  | set (place : Span) (negated : Bool) (body : SetTree)
  | several (place : Span) (items : List SetTree)
  | op (place : Span) (kind : SetOp) (left right : SetTree)

def SetTree.place : SetTree → Span
  | nothing p | category p _ _ | named p _ _ | property p _ | range p _ _ | set p _ _
  | several p _ | op p _ _ _ => p
  | letter l => l.place

abbrev Flags := List Char

inductive Tree
  | nothing (place : Span)
  | flags (place : Span) (changes : Flags)
  | letter (l : Letter)
  | dot (place : Span)
  | sign (place : Span) (s : Sign)
  | category (place : Span) (name : Category) (negated : Bool)
  | property (place : Span) (name : List Char)
  | set (place : Span) (negated : Bool) (body : SetTree)
  | repeated (place : Span) (body : Tree) (least : Nat) (most : Option Nat) (greedy : Bool)
  | capture (place : Span) (number : Nat) (body : Tree)
  | group (place : Span) (changes : Flags) (body : Tree)
  | row (place : Span) (items : List Tree)
  | branches (place : Span) (items : List Tree)

def Tree.place : Tree → Span
  | nothing p | flags p _ | dot p | sign p _ | category p _ _ | property p _ | set p _ _
  | repeated p _ _ _ _ | capture p _ _ | group p _ _ | row p _ | branches p _ => p
  | letter l => l.place

mutual

/-- The place of the first part, in reading order, that lies deeper than so many others. -/
def SetTree.tooDeep? (depth : Nat) : SetTree → Option Span
  | .nothing _ | .letter _ | .range _ _ _ | .category _ _ _ | .named _ _ _ | .property _ _ => none
  | .set p _ body => match depth with
    | 0 => some p
    | n + 1 => body.tooDeep? n
  | .several p items => match depth with
    | 0 => some p
    | n + 1 => tooDeepSets? n items
  | .op p _ left right => match depth with
    | 0 => some p
    | n + 1 => left.tooDeep? n <|> right.tooDeep? n

def tooDeepSets? (depth : Nat) : List SetTree → Option Span
  | [] => none
  | t :: l => t.tooDeep? depth <|> tooDeepSets? depth l

end

mutual

def Tree.tooDeep? (depth : Nat) : Tree → Option Span
  | .nothing _ | .flags _ _ | .letter _ | .dot _ | .sign _ _ | .category _ _ _ | .property _ _ =>
      none
  | .set p _ body => match depth with
    | 0 => some p
    | n + 1 => body.tooDeep? n
  | .repeated p body _ _ _ | .capture p _ body | .group p _ body => match depth with
    | 0 => some p
    | n + 1 => body.tooDeep? n
  | .row p items | .branches p items => match depth with
    | 0 => some p
    | n + 1 => tooDeepTrees? n items

def tooDeepTrees? (depth : Nat) : List Tree → Option Span
  | [] => none
  | t :: l => t.tooDeep? depth <|> tooDeepTrees? depth l

end

def depthLimit : Nat := 250

end TreeTally.Pattern
