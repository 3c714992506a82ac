import TreeTally.Text.CharSet

namespace TreeTally.Utf8

abbrev ByteRange := Nat × Nat

def encode (n : Nat) : List Nat :=
  if n < 0x80 then [n]
  else if n < 0x800 then [0xc0 + n / 64, 0x80 + n % 64]
  else if n < 0x10000 then [0xe0 + n / 4096, 0x80 + n / 64 % 64, 0x80 + n % 64]
  else [0xf0 + n / 262144, 0x80 + n / 4096 % 64, 0x80 + n / 64 % 64, 0x80 + n % 64]

/-- Cuts where two ranges differ above the last `m` code points, unless each covers all below. -/
def cutAligned? (r : CharRange) (m : Nat) : Option (CharRange × CharRange) :=
  if r.1 / m = r.2 / m then none
  else if r.1 % m ≠ 0 then
    let middle := r.1 / m * m + m
    some ((r.1, middle - 1), (middle, r.2))
  else if r.2 % m ≠ m - 1 then
    let middle := r.2 / m * m
    some ((r.1, middle - 1), (middle, r.2))
  else none

def cutAt? (r : CharRange) (last : Nat) : Option (CharRange × CharRange) :=
  if r.1 ≤ last ∧ last < r.2 then some ((r.1, last), (last + 1, r.2)) else none

/-- Around the surrogates, then by the length of the forms, then where bytes would not range
freely. -/
def cut? (r : CharRange) : Option (CharRange × CharRange) :=
  if r.1 < 0xe000 ∧ 0xd7ff < r.2 then some ((r.1, 0xd7ff), (0xe000, r.2))
  else
    [0x7f, 0x7ff, 0xffff].findSome? (cutAt? r) <|>
      if r.2 < 0x80 then none else [64, 4096, 262144].findSome? (cutAligned? r)

def pieces : Nat → CharRange → List CharRange
  | 0, r => [r]
  | n + 1, r =>
      match cut? r with
      | none => [r]
      | some (a, b) => pieces n a ++ pieces n b

def mostCuts : Nat := 32

def sequences (s : CharSet) : List (List ByteRange) :=
  s.flatMap fun r => (pieces mostCuts r).filterMap fun p =>
    if p.1 ≤ p.2 then some ((encode p.1).zip (encode p.2)) else none

end TreeTally.Utf8
