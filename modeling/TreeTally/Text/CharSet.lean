namespace TreeTally

abbrev CharRange := Nat × Nat

/-- Stretches of code points in order, with gaps between them. Surrogates are no characters, so the
code points next to them count as neighbours. -/
abbrev CharSet := List CharRange

namespace CharSet

def lastChar : Nat := 0x10ffff

def next (n : Nat) : Nat := if n = 0xd7ff then 0xe000 else n + 1

def previous (n : Nat) : Nat := if n = 0xe000 then 0xd7ff else n - 1

def range (a b : Nat) : CharRange := (min a b, max a b)

/-- Joins the stretches that the new one touches. -/
def insert (r : CharRange) : CharSet → CharSet
  | [] => [r]
  | s :: l =>
      if r.2 + 1 < s.1 then r :: s :: l
      else if s.2 + 1 < r.1 then s :: insert r l
      else insert (min r.1 s.1, max r.2 s.2) l

def union (s t : CharSet) : CharSet := t.foldl (fun s r => insert r s) s

def ofRanges (l : List CharRange) : CharSet := union [] l

def single (c : Char) : CharSet := [(c.toNat, c.toNat)]

def inter (s t : CharSet) : CharSet :=
  s.flatMap fun a => t.filterMap fun b =>
    let r := (max a.1 b.1, min a.2 b.2)
    if r.1 ≤ r.2 then some r else none

def cut (a b : CharRange) : CharSet :=
  if b.2 < a.1 ∨ a.2 < b.1 then [a]
  else
    (if a.1 < b.1 then [range a.1 (previous b.1)] else [])
      ++ if b.2 < a.2 then [range (next b.2) a.2] else []

def diff (s t : CharSet) : CharSet := t.foldl (fun s b => s.flatMap fun a => cut a b) s

/-- The stretches between those of a set, and up to the last character. -/
def gaps (after : Nat) : CharSet → CharSet
  | [] => if after < lastChar then [range (next after) lastChar] else []
  | r :: l => range (next after) (previous r.1) :: gaps r.2 l

def compl : CharSet → CharSet
  | [] => [(0, lastChar)]
  | r :: l => (if 0 < r.1 then [(0, previous r.1)] else []) ++ gaps r.2 l

def has (s : CharSet) (c : Char) : Bool := s.any fun r => r.1 ≤ c.toNat && c.toNat ≤ r.2

def isAscii (s : CharSet) : Bool := s.all fun r => r.2 < 0x80

def only? : CharSet → Option Char
  | [(a, b)] => if h : a = b ∧ a.isValidChar then some (Char.ofNatAux a h.2) else none
  | _ => none

def anyCase (s : CharSet) : CharSet :=
  let upper := inter s [(0x41, 0x5a)]
  let lower := inter s [(0x61, 0x7a)]
  union (union s (upper.map fun r => (r.1 + 0x20, r.2 + 0x20)))
    (lower.map fun r => (r.1 - 0x20, r.2 - 0x20))

end CharSet

end TreeTally
