import TreeTally.Text.Decimal

namespace TreeTally

/-- A number is a whole number times a power of ten. Fields keep their order; none is dropped. -/
inductive Json
  | null
  | flag (b : Bool)
  | number (n : Int) (power : Int)
  | text (t : String)
  | array (items : List Json)
  | object (fields : List (String × Json))

namespace Json

/-- A character, or a unit of 16 bits that was written as a number. -/
inductive Piece
  | char (c : Char)
  | unit (n : Nat)

def hexDigit? (c : Char) : Option Nat :=
  if c.isDigit then some (c.toNat - '0'.toNat)
  else if 'a' ≤ c ∧ c ≤ 'f' then some (c.toNat - 'a'.toNat + 10)
  else if 'A' ≤ c ∧ c ≤ 'F' then some (c.toNat - 'A'.toNat + 10)
  else none

def unit? (a b c d : Char) : Option Piece := do
  return .unit ((((← hexDigit? a) * 16 + (← hexDigit? b)) * 16 + (← hexDigit? c)) * 16
    + (← hexDigit? d))

def escaped? : Char → Option Piece
  | '"' => some (.char '"')
  | '\\' => some (.char '\\')
  | '/' => some (.char '/')
  | 'b' => some (.char '\x08')
  | 'f' => some (.char '\x0c')
  | 'n' => some (.char '\n')
  | 'r' => some (.char '\r')
  | 't' => some (.char '\t')
  | _ => none

def pieces? : List Char → Option (List Piece × List Char)
  | [] => none
  | c :: r =>
      if c = '"' then some ([], r)
      else if c = '\\' then
        match r with
        | [] => none
        | 'u' :: a :: b :: c :: d :: r => do
            let p ← unit? a b c d
            let (ps, rest) ← pieces? r
            return (p :: ps, rest)
        | e :: r => do
            let p ← escaped? e
            let (ps, rest) ← pieces? r
            return (p :: ps, rest)
      else if c.toNat < 0x20 then none
      else do
        let (ps, rest) ← pieces? r
        return (.char c :: ps, rest)

/-- Two surrogates make one character, and none stands alone. -/
def spelled? : List Piece → Option (List Char)
  | [] => some []
  | .char c :: ps => (spelled? ps).map (c :: ·)
  | .unit n :: ps =>
      if 0xd800 ≤ n ∧ n < 0xdc00 then
        match ps with
        | .unit m :: ps =>
            if 0xdc00 ≤ m ∧ m < 0xe000 then
              (spelled? ps).map (.ofNat (0x10000 + (n - 0xd800) * 0x400 + (m - 0xdc00)) :: ·)
            else none
        | _ => none
      else if 0xdc00 ≤ n ∧ n < 0xe000 then none
      else (spelled? ps).map (.ofNat n :: ·)

def fraction? : List Char → Option (List Char × List Char)
  | '.' :: r =>
      if r.takeWhile Char.isDigit = [] then none
      else some (r.takeWhile Char.isDigit, r.dropWhile Char.isDigit)
  | l => some ([], l)

def power? (sign : Int) (l : List Char) : Option (Int × List Char) :=
  if l.takeWhile Char.isDigit = [] then none
  else some (sign * Decimal.digits (l.takeWhile Char.isDigit), l.dropWhile Char.isDigit)

def exponent? : List Char → Option (Int × List Char)
  | [] => some (0, [])
  | c :: r =>
      if c = 'e' ∨ c = 'E' then
        match r with
        | '+' :: r => power? 1 r
        | '-' :: r => power? (-1) r
        | r => power? 1 r
      else some (0, c :: r)

/-- A number without a sign; a zero in front stands alone. -/
def number? (sign : Int) (l : List Char) : Option (Json × List Char) := do
  let whole := l.takeWhile Char.isDigit
  if whole = [] ∨ whole.head? = some '0' ∧ whole ≠ ['0'] then none
  else
    let (f, r) ← fraction? (l.dropWhile Char.isDigit)
    let (e, r) ← exponent? r
    return (.number (sign * Decimal.digits (whole ++ f)) (e - f.length), r)

inductive Symbol
  | openArray
  | closeArray
  | openObject
  | closeObject
  | comma
  | colon
  | value (v : Json)

def isBlank (c : Char) : Bool := c == ' ' || c == '\t' || c == '\n' || c == '\r'

def symbol? : List Char → Option (Symbol × List Char)
  | '[' :: r => some (.openArray, r)
  | ']' :: r => some (.closeArray, r)
  | '\x7b' :: r => some (.openObject, r)
  | '\x7d' :: r => some (.closeObject, r)
  | ',' :: r => some (.comma, r)
  | ':' :: r => some (.colon, r)
  | 'n' :: 'u' :: 'l' :: 'l' :: r => some (.value .null, r)
  | 't' :: 'r' :: 'u' :: 'e' :: r => some (.value (.flag true), r)
  | 'f' :: 'a' :: 'l' :: 's' :: 'e' :: r => some (.value (.flag false), r)
  | '"' :: r => do
      let (ps, rest) ← pieces? r
      return (.value (.text (.ofList (← spelled? ps))), rest)
  | '-' :: r => do
      let (v, rest) ← number? (-1) r
      return (.value v, rest)
  | l => do
      let (v, rest) ← number? 1 l
      return (.value v, rest)

/-- The symbols behind so many characters, which belong to a symbol that has been read. -/
def symbolsAfter : Nat → List Char → Option (List Symbol)
  | _, [] => some []
  | read + 1, _ :: r => symbolsAfter read r
  | 0, c :: r =>
      if isBlank c then symbolsAfter 0 r
      else match symbol? (c :: r) with
        | none => none
        | some (s, rest) => (symbolsAfter (r.length - rest.length) r).map (s :: ·)

/-- An array or object that is open, with what it holds, last first; an object with the name of the
value that is to come. -/
inductive Frame
  | array (items : List Json)
  | object (fields : List (String × Json)) (name : String)

mutual

def valueIn (outer : List Frame) : List Symbol → Option Json
  | .value v :: ss => valueBehind outer v ss
  | .openArray :: .closeArray :: ss => valueBehind outer (.array []) ss
  | .openArray :: ss => valueIn (.array [] :: outer) ss
  | .openObject :: .closeObject :: ss => valueBehind outer (.object []) ss
  | .openObject :: .value (.text n) :: .colon :: ss => valueIn (.object [] n :: outer) ss
  | _ => none

def valueBehind : List Frame → Json → List Symbol → Option Json
  | [], v, [] => some v
  | .array vs :: outer, v, .comma :: ss => valueIn (.array (v :: vs) :: outer) ss
  | .array vs :: outer, v, .closeArray :: ss => valueBehind outer (.array (v :: vs).reverse) ss
  | .object fs n :: outer, v, .comma :: .value (.text m) :: .colon :: ss =>
      valueIn (.object ((n, v) :: fs) m :: outer) ss
  | .object fs n :: outer, v, .closeObject :: ss =>
      valueBehind outer (.object ((n, v) :: fs).reverse) ss
  | _, _, _ => none

end

def read? (s : String) : Option Json := do valueIn [] (← symbolsAfter 0 s.toList)

end Json

end TreeTally
