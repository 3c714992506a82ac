namespace TreeTally.Decimal

def digits (l : List Char) : Nat := l.foldl (fun n c => 10 * n + (c.toNat - '0'.toNat)) 0

def wordLimit : Nat := 18446744073709551616

def unsigned : List Char → List Char
  | '+' :: r => r
  | l => l

def parse? (s : String) : Option Nat :=
  let l := unsigned s.toList
  if l ≠ [] ∧ l.all Char.isDigit ∧ digits l < wordLimit then some (digits l) else none

end TreeTally.Decimal
