namespace TreeTally.Terminal

inductive Place
  | outside
  | escape
  | escapeMiddle
  | control
  | device
  | deviceParameter
  | deviceMiddle
  /-- In a text of its own, that takes an escape or a string terminator to end. -/
  | string
  /-- In a text of its own that a bell can end as well. -/
  | system

def isLayout (c : Char) : Bool := c == '\t' || c == '\n' || c == '\x0c' || c == '\r'

/-- What a bare text shows: layout, the printable ASCII characters, and all beyond ASCII. -/
def isShown (c : Char) : Bool := isLayout c || (0x20 ≤ c.toNat && c.toNat ≠ 0x7f)

def holdsTerminator (c : Char) : Bool :=
  let n := c.toNat
  (0x80 ≤ n && n % 64 == 0x1c) || (0x800 ≤ n && n / 64 % 64 == 0x1c) ||
    (0x10000 ≤ n && n / 4096 % 64 == 0x1c)

namespace Place

def afterSign (n : Nat) : Place → Place
  | outside => outside
  | escape =>
      if n < 0x30 then escapeMiddle
      else if n = 0x50 then device
      else if n = 0x58 ∨ n = 0x5e ∨ n = 0x5f then string
      else if n = 0x5b then control
      else if n = 0x5d then system
      else outside
  | escapeMiddle => if n < 0x30 then escapeMiddle else outside
  | control => if n < 0x40 then control else outside
  | device =>
      if n < 0x30 then deviceMiddle else if n < 0x40 then deviceParameter else string
  | deviceParameter =>
      if n < 0x30 then deviceMiddle else if n < 0x3c then deviceParameter else string
  | deviceMiddle => if n < 0x30 then deviceMiddle else string
  | string => string
  | system => system

/-- The escape character begins a new command anywhere, and two controls end any. -/
def after (c : Char) (p : Place) : Place :=
  let n := c.toNat
  if n = 0x1b then escape
  else if n = 0x18 ∨ n = 0x1a then outside
  else if n < 0x20 then
    match p with
    | system => if n = 0x07 then outside else system
    | p => p
  else if n = 0x7f then p
  else if n < 0x80 then p.afterSign n
  else match p with
    | string => if holdsTerminator c then outside else string
    | p => p

/-- Layout is shown even inside a command, unless that is or takes a text of its own. -/
def shows (c : Char) : Place → Bool
  | outside => isShown c
  | escape | escapeMiddle | control => isLayout c
  | device | deviceParameter | deviceMiddle | string | system => false

end Place

/-- Once something is shown, all that a bare text shows goes on to be shown. Only then is the place
looked at again, which until then has moved for characters beyond ASCII alone. -/
def stripFrom (showing : Bool) (p : Place) : List Char → List Char
  | [] => []
  | c :: r =>
      if showing && isShown c then c :: stripFrom true (if c.toNat < 0x80 then p else .outside) r
      else if p.shows c then c :: stripFrom true (p.after c) r
      else stripFrom false (p.after c) r

def strip (l : List Char) : List Char := stripFrom false .outside l

end TreeTally.Terminal
