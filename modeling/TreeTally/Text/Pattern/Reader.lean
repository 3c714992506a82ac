import TreeTally.Text.Alphabetic
import TreeTally.Text.Blank
import TreeTally.Text.Numeric
import TreeTally.Text.Pattern.Tree

namespace TreeTally.Pattern

inductive GroupKind
  | capture (number : Nat)
  | flags (changes : Flags)

/-- Rows that are read, last first, and where the first of them begins; the row that is being read,
last first, and where it begins. -/
structure Level where
  start : Nat := 0
  branches : List Tree := []
  rowStart : Nat := 0
  items : List Tree := []

structure OpenGroup where
  start : Nat
  kind : GroupKind
  spaced : Bool
  level : Level

/-- How far the text is read. In a spaced pattern blanks and comments do not count. -/
structure Reading where
  column : Nat := 0
  rest : List Char
  spaced : Bool := false
  level : Level := {}
  outer : List OpenGroup := []
  captures : Nat := 0
  names : List (List Char × Span) := []

abbrev Read := StateT Reading (Except Mistake)

def fail (c : Cause) (start stop : Nat) : Read α := throw ⟨c, ⟨start, stop⟩, none⟩

def here : Read Nat := return (← get).column

def rest : Read (List Char) := return (← get).rest

def next? : Read (Option Char) := return (← get).rest.head?

def failHere (c : Cause) : Read α := do
  let n ← here
  fail c n n

def failChar (c : Cause) : Read α := do
  let n ← here
  fail c n (n + 1)

def goTo (r : List Char) : Read Unit := modify fun s =>
  { s with column := s.column + (s.rest.length - r.length), rest := r }

def dropBlanks (comment : Bool) : List Char → List Char
  | [] => []
  | c :: r =>
      if comment then dropBlanks (c != '\n') r
      else if c = '#' then dropBlanks true r
      else if isBlank c then dropBlanks false r
      else c :: r

def skipBlanks : Read Unit := do
  if (← get).spaced then goTo (dropBlanks false (← rest))

def skip : Read Unit := modify fun s =>
  if s.rest.isEmpty then s else { s with column := s.column + 1, rest := s.rest.tail }

def advance : Read Unit := do
  skip
  skipBlanks

def manyWithin (ok : Char → Bool) : Nat → Read (List Char)
  | 0 => return []
  | n + 1 => do
      match ← next? with
      | none => return []
      | some c =>
          if ok c then
            advance
            return c :: (← manyWithin ok n)
          else return []

def many (ok : Char → Bool) : Read (List Char) := do manyWithin ok (← rest).length

def isHex (c : Char) : Bool :=
  c.isDigit || ('a'.toNat ≤ c.toLower.toNat && c.toLower.toNat ≤ 'f'.toNat)

def hexDigit (c : Char) : Nat :=
  if c.isDigit then c.toNat - '0'.toNat else c.toLower.toNat - 'a'.toNat + 10

def hexChar? (l : List Char) : Option Char :=
  let n := l.foldl (fun n c => 16 * n + hexDigit c) 0
  if h : n.isValidChar then some (Char.ofNatAux n h) else none

def hexDigits : Nat → Read (List Char)
  | 0 => return []
  | n + 1 => do
      match ← next? with
      | none => failHere .escapeUnfinished
      | some c =>
          if isHex c then
            advance
            return c :: (← hexDigits n)
          else failChar .hexDigit

def charOf (l : List Char) (start stop : Nat) : Read Char :=
  match hexChar? l with
  | some c => return c
  | none => fail .hexNoCharacter start stop

/-- A character by its number: so many digits, or any number of them in braces. Two digits are the
number of a byte. -/
def hexChar (start digits : Nat) : Read Letter := do
  advance
  let first ← here
  match ← next? with
  | none => failHere .escapeUnfinished
  | some '{' =>
      advance
      let l ← many isHex
      let stop ← here
      match ← next? with
      | none => fail .escapeUnfinished first stop
      | some '}' =>
          advance
          if l.isEmpty then fail .hexMissing first (← here)
          return ⟨⟨start, ← here⟩, ← charOf l (first + 1) stop, false⟩
      | some _ => failChar .hexDigit
  | some _ =>
      let l ← hexDigits digits
      return ⟨⟨start, ← here⟩, ← charOf l first (← here), digits == 2⟩

inductive Atom
  | letter (l : Letter)
  | category (name : Category) (negated : Bool)
  | property (name : List Char)
  | sign (s : Sign)

def propertyName : Read (List Char) := do
  advance
  match ← next? with
  | none => failHere .escapeUnfinished
  | some '{' =>
      advance
      let name ← many (· ≠ '}')
      if (← next?).isNone then failHere .escapeUnfinished
      skip
      return name
  | some '\\' => failChar .property
  | some c =>
      advance
      return [c]

def isEdgeChar (c : Char) : Bool := c.isAlpha || c == '-'

def edges : List (String × Edge) :=
  [("start", .left), ("end", .right), ("start-half", .leftHalf), ("end-half", .rightHalf)]

/-- A name in braces makes the edge of a word a special one; anything else in them is a count. -/
def edge (start : Nat) : Read Edge := do
  match ← next? with
  | some '{' =>
      let before ← get
      let brace ← here
      advance
      let inner ← here
      match ← next? with
      | none => fail .edgeUnfinished start inner
      | some c =>
          if isEdgeChar c then
            let l ← many isEdgeChar
            let stop ← here
            if (← next?) ≠ some '}' then fail .edgeUnclosed brace stop
            skip
            match edges.find? (·.1.toList == l) with
            | some e => return e.2
            | none => fail .edgeUnknown inner stop
          else
            modify fun _ => before
            return .either
  | _ => return .either

def classes : List (Char × Category × Bool) :=
  [('d', .digit, false), ('D', .digit, true), ('s', .blank, false), ('S', .blank, true),
    ('w', .word, false), ('W', .word, true)]

def controls : List (Char × Nat) :=
  [('a', 0x07), ('f', 0x0c), ('t', 0x09), ('n', 0x0a), ('r', 0x0d), ('v', 0x0b)]

def signs : List (Char × Sign) :=
  [('A', .textStart), ('z', .textEnd), ('B', .word .neither), ('<', .word .left),
    ('>', .word .right)]

def hexLengths : List (Char × Nat) := [('x', 2), ('u', 4), ('U', 8)]

/-- Letters and digits cannot be escaped, nor can the brackets that mark the edges of a word. -/
def isEscapable (c : Char) : Bool := c.toNat < 128 && !c.isAlphanum && c != '<' && c != '>'

def escape : Read Atom := do
  let start ← here
  skip
  match ← next? with
  | none => fail .escapeUnfinished start (← here)
  | some c =>
      if c.isDigit then fail .backReference start (start + 2)
      else if let some n := hexLengths.lookup c then return .letter (← hexChar start n)
      else if c = 'p' ∨ c = 'P' then return .property (← propertyName)
      else
        skip
        let place : Span := ⟨start, start + 2⟩
        if let some s := classes.lookup c then return .category s.1 s.2
        else if isEscapable c then return .letter ⟨place, c, false⟩
        else if let some n := controls.lookup c then return .letter ⟨place, Char.ofNat n, false⟩
        else if c = 'b' then return .sign (.word (← edge start))
        else if let some s := signs.lookup c then return .sign s
        else fail .escapeUnknown start (start + 2)

def SetOp.of? : List Char → Option SetOp
  | '&' :: '&' :: _ => some .inter
  | '-' :: '-' :: _ => some .diff
  | '~' :: '~' :: _ => some .symmDiff
  | _ => none

/-- A set between brackets, as far as it is read: where its bracket is, and where it is empty. The
items come last first. -/
structure OpenSet where
  place : Span
  negated : Bool
  pending : Option (SetOp × SetTree) := none
  inner : Nat
  items : List SetTree := []

namespace OpenSet

def add (s : OpenSet) (t : SetTree) : OpenSet := { s with items := t :: s.items }

def severalOf (inner : Nat) : List SetTree → SetTree
  | [] => .nothing ⟨inner, inner⟩
  | [t] => t
  | t :: l => .several ⟨((t :: l).getLast?.getD t).place.start, t.place.stop⟩ (t :: l).reverse

def body (s : OpenSet) : SetTree :=
  let t := severalOf s.inner s.items
  match s.pending with
  | none => t
  | some (op, left) => .op ⟨left.place.start, t.place.stop⟩ op left t

def operator (op : SetOp) (inner : Nat) (s : OpenSet) : OpenSet :=
  { s with pending := some (op, s.body), inner, items := [] }

end OpenSet

/-- Dashes at the start of a set stand for themselves, and so does a closing bracket. -/
def openSet : Read OpenSet := do
  let start ← here
  advance
  let negated := (← next?) == some '^'
  if negated then advance
  if (← next?).isNone then fail .setUnclosed start (← here)
  let inner ← here
  let dashes ← dashesWithin start (← rest).length
  if !dashes.isEmpty then return ⟨⟨start, ← here⟩, negated, none, inner, dashes.reverse⟩
  else if (← next?) == some ']' then
    advance
    if (← next?).isNone then fail .setUnclosed start (← here)
    return ⟨⟨start, ← here⟩, negated, none, inner, [.letter ⟨⟨inner, inner + 1⟩, ']', false⟩]⟩
  else return ⟨⟨start, ← here⟩, negated, none, inner, []⟩
where
  dashesWithin (start : Nat) : Nat → Read (List SetTree)
    | 0 => return []
    | n + 1 => do
        if (← next?) == some '-' then
          let place : Span := ⟨← here, (← here) + 1⟩
          advance
          if (← next?).isNone then fail .setUnclosed start start
          return .letter ⟨place, '-', false⟩ :: (← dashesWithin start n)
        else return []

def namedSets : List (String × List (Char × Char)) :=
  [("alnum", [('0', '9'), ('A', 'Z'), ('a', 'z')]), ("alpha", [('A', 'Z'), ('a', 'z')]),
    ("ascii", [('\x00', '\x7f')]), ("blank", [('\t', '\t'), (' ', ' ')]),
    ("cntrl", [('\x00', '\x1f'), ('\x7f', '\x7f')]), ("digit", [('0', '9')]),
    ("graph", [('!', '~')]), ("lower", [('a', 'z')]), ("print", [(' ', '~')]),
    ("punct", [('!', '/'), (':', '@'), ('[', '\x60'), ('\x7b', '~')]),
    ("space", [('\t', '\r'), (' ', ' ')]), ("upper", [('A', 'Z')]),
    ("word", [('0', '9'), ('A', 'Z'), ('_', '_'), ('a', 'z')]),
    ("xdigit", [('0', '9'), ('A', 'F'), ('a', 'f')])]

def namedSet? (name : List Char) : Option (List (Nat × Nat)) :=
  (namedSets.find? (·.1.toList == name)).map fun n => n.2.map fun r => (r.1.toNat, r.2.toNat)

def readNamed? (start : Nat) : List Char → Option (SetTree × List Char)
  | '[' :: ':' :: r =>
      let negated := r.head? == some '^'
      let r := if negated then r.tail else r
      let name := r.takeWhile (· != ':')
      match r.dropWhile (· != ':'), namedSet? name with
      | ':' :: ']' :: after, some ranges =>
          let stop := start + 4 + name.length + if negated then 1 else 0
          some (.named ⟨start, stop⟩ ranges negated, after)
      | _, _ => none
  | _ => none

def setAtom : Read Atom := do
  match ← next? with
  | some '\\' => escape
  | some c =>
      let n ← here
      skip
      return .letter ⟨⟨n, n + 1⟩, c, false⟩
  | none => failHere .setUnclosed

/-- What comes after the next character. In a spaced pattern blanks do not count, nor do hash signs,
and what follows a hash sign counts even so. -/
def peek (spaced : Bool) (l : List Char) : Option Char :=
  if spaced then (pastBlanks false l).head? <|> l.head? else l.head?
where
  pastBlanks (hash : Bool) : List Char → List Char
    | [] => []
    | c :: r =>
        if isBlank c then pastBlanks hash r
        else if !hash && c == '#' then pastBlanks true r
        else c :: r

def setItem (set : Span) : Read SetTree := do
  let start ← here
  let a ← setAtom
  let stop ← here
  let place : Span := ⟨start, stop⟩
  skipBlanks
  match ← rest with
  | [] => fail .setUnclosed set.start set.stop
  | c :: r =>
      let after := peek (← get).spaced r
      if c ≠ '-' ∨ after = some ']' ∨ after = some '-' then
        match a with
        | .letter l => return .letter l
        | .category name negated => return .category place name negated
        | .property name => return .property place name
        | .sign _ => fail .setEscape start stop
      else
        advance
        let start' ← here
        if (← next?).isNone then fail .setUnclosed set.start set.stop
        let b ← setAtom
        let stop' ← here
        match a, b with
        | .letter l, .letter m =>
            if m.char.toNat < l.char.toNat then fail .rangeReversed start stop'
            return .range ⟨start, stop'⟩ l m
        | .letter _, _ => fail .rangeEnd start' stop'
        | _, _ => fail .rangeEnd start stop

def setBody : Nat → OpenSet → List OpenSet → Read OpenSet
  | 0, s, _ => fail .setUnclosed s.place.start s.place.stop
  | n + 1, s, outer => do
      skipBlanks
      match ← rest with
      | [] => fail .setUnclosed s.place.start s.place.stop
      | '[' :: r =>
          match readNamed? (← here) ('[' :: r) with
          | some (t, after) =>
              goTo after
              setBody n (s.add t) outer
          | none => setBody n (← openSet) (s :: outer)
      | ']' :: _ =>
          skip
          match outer with
          | [] => return s
          | t :: outer => setBody n (t.add (.set ⟨s.place.start, ← here⟩ s.negated s.body)) outer
      | l =>
          match SetOp.of? l with
          | some op =>
              goTo (l.drop 2)
              setBody n (s.operator op (← here)) outer
          | none => setBody n (s.add (← setItem s.place)) outer

def readSet : Read Tree := do
  let n := (← rest).length
  let s ← setBody n (← openSet) []
  return .set ⟨s.place.start, ← here⟩ s.negated s.body

def addItem (t : Tree) : Read Unit := modify fun s =>
  { s with level := { s.level with items := t :: s.level.items } }

namespace Level

def row (stop : Nat) (l : Level) : Tree :=
  match l.items with
  | [] => .nothing ⟨l.rowStart, stop⟩
  | [t] => t
  | items => .row ⟨l.rowStart, stop⟩ items.reverse

def tree (stop : Nat) (l : Level) : Tree :=
  match l.branches with
  | [] => l.row stop
  | branches => .branches ⟨l.start, stop⟩ (l.row stop :: branches).reverse

end Level

def startBranch : Read Unit := do
  let stop ← here
  skip
  modify fun s => { s with level :=
    ⟨s.level.start, s.level.row stop :: s.level.branches, s.column, []⟩ }

def enterGroup (start : Nat) (kind : GroupKind) (spaced : Bool) : Read Unit := modify fun s =>
  { s with
    spaced
    level := ⟨s.column, [], s.column, []⟩
    outer := ⟨start, kind, s.spaced, s.level⟩ :: s.outer }

def enterCapture (start : Nat) : Read Unit := do
  let n := (← get).captures + 1
  modify fun s => { s with captures := n }
  enterGroup start (.capture n) (← get).spaced

def closeGroup : Read Unit := do
  match (← get).outer with
  | [] => failChar .groupUnopened
  | g :: outer =>
      let stop ← here
      skip
      let body := (← get).level.tree stop
      let place : Span := ⟨g.start, stop + 1⟩
      modify fun s => { s with spaced := g.spaced, level := g.level, outer }
      addItem (match g.kind with
        | .capture n => .capture place n body
        | .flags changes => .group place changes body)

def isNameChar (isFirst : Bool) (c : Char) : Bool :=
  c == '_' || isLetter c || (!isFirst && (isNumeric c || c == '.' || c == '[' || c == ']'))

def badNameChar? : Bool → List Char → Option Nat
  | _, [] => none
  | isFirst, c :: r =>
      if isNameChar isFirst c then (badNameChar? false r).map (· + 1) else some 0

def groupName : Read Unit := do
  let start ← here
  let name := (← rest).takeWhile (· ≠ '>')
  let stop := start + name.length
  if let some i := badNameChar? true name then fail .nameCharacter (start + i) (start + i + 1)
  goTo ((← rest).drop name.length)
  if (← next?).isNone then fail .nameUnfinished stop stop
  skip
  if name.isEmpty then fail .nameMissing start start
  if let some earlier := (← get).names.lookup name then
    throw ⟨.nameTwice, ⟨start, stop⟩, some earlier⟩
  modify fun s => { s with names := (name, ⟨start, stop⟩) :: s.names }

def flagItems (seen : List (Char × Nat)) : Nat → Read (List (Char × Nat))
  | 0 => failHere .flagsUnfinished
  | n + 1 => do
      match ← next? with
      | none => failHere .flagsUnfinished
      | some c =>
          if c = ':' ∨ c = ')' then return seen
          if c ≠ '-' ∧ !"imsUuRx".toList.contains c then failChar .flagUnknown
          let column ← here
          if let some e := seen.lookup c then
            throw ⟨if c = '-' then .negationTwice else .flagTwice, ⟨column, column + 1⟩,
              some ⟨e, e + 1⟩⟩
          skip
          flagItems ((c, column) :: seen) n

def readFlags : Read Flags := do
  let l ← flagItems [] ((← rest).length + 1)
  if let some ('-', column) := l.head? then fail .flagDangling column (column + 1)
  return (l.map Prod.fst).reverse

def flagAfter (flag : Char) (before : Bool) (changes : Flags) : Bool :=
  match changes.dropWhile (· ≠ flag), changes.takeWhile (· ≠ flag) with
  | [], _ => before
  | _, earlier => !earlier.contains '-'

def openGroup : Read Unit := do
  let start ← here
  advance
  let inner ← here
  let l ← rest
  if let some t := ["?=", "?!", "?<=", "?<!"].find? (·.toList.isPrefixOf l) then
    fail .lookAround start (inner + t.length)
  if let some t := ["?P<", "?<"].find? (·.toList.isPrefixOf l) then
    goTo (l.drop t.length)
    groupName
    enterCapture start
  else if l.head? = some '?' then
    skip
    if (← next?).isNone then fail .groupUnclosed start (start + 1)
    let changes ← readFlags
    let spaced := flagAfter 'x' (← get).spaced changes
    let last ← next?
    skip
    if last = some ')' then
      if changes.isEmpty then fail .nothingToRepeat inner inner
      modify fun s => { s with spaced }
      addItem (.flags ⟨start, ← here⟩ changes)
    else enterGroup start (.flags changes) spaced
  else enterCapture start

def repeated : Read Tree := do
  match (← get).level.items with
  | [] | .flags _ _ :: _ => failHere .nothingToRepeat
  | t :: l =>
      modify fun s => { s with level := { s.level with items := l } }
      return t

def readGreedy : Read Bool := do
  if (← next?) = some '?' then
    skip
    return false
  else return true

def addRepeated (t : Tree) (least : Nat) (most : Option Nat) (greedy : Bool) : Read Unit := do
  addItem (.repeated ⟨t.place.start, ← here⟩ t least most greedy)

def repeatBy (least : Nat) (most : Option Nat) : Read Unit := do
  let t ← repeated
  skip
  let greedy ← readGreedy
  addRepeated t least most greedy

def skipBlanksAlways : Read Unit := do goTo ((← rest).dropWhile isBlank)

def decimal : Read (Except Mistake Nat) := do
  skipBlanksAlways
  let start ← here
  let l ← many Char.isDigit
  let place : Span := ⟨start, ← here⟩
  skipBlanksAlways
  let n := l.foldl (fun n c => 10 * n + (c.toNat - '0'.toNat)) 0
  if l.isEmpty then return .error ⟨.countMissing, place, none⟩
  else if n < 4294967296 then return .ok n
  else return .error ⟨.numberTooLarge, place, none⟩

def given : Except Mistake Nat → Read Nat
  | .ok n => return n
  | .error m => throw m

/-- The counts between braces; without a second one there is no upper bound. -/
def counts (start : Nat) : Read (Nat × Option Nat) := do
  let unclosed : Read Unit := do if (← next?).isNone then fail .countUnclosed start (← here)
  advance
  unclosed
  let least ← decimal
  unclosed
  if (← next?) = some ',' then
    advance
    unclosed
    if (← next?) = some '}' then return (← given least, none)
    let least ← given least
    return (least, some (← given (← decimal)))
  else
    let n ← given least
    return (n, some n)

def repeatCounted : Read Unit := do
  let start ← here
  let t ← repeated
  let (least, most) ← counts start
  if (← next?) ≠ some '}' then fail .countUnclosed start (← here)
  advance
  let greedy ← readGreedy
  if most.any (· < least) then fail .countReversed start (← here)
  addRepeated t least most greedy

def single (c : Char) : Read Tree := do
  let start ← here
  if c = '\\' then
    let a ← escape
    let place : Span := ⟨start, ← here⟩
    match a with
    | .letter l => return .letter l
    | .category name negated => return .category place name negated
    | .property name => return .property place name
    | .sign s => return .sign place s
  else
    skip
    let place : Span := ⟨start, start + 1⟩
    if c = '.' then return .dot place
    else if c = '^' then return .sign place .lineStart
    else if c = '$' then return .sign place .lineEnd
    else return .letter ⟨place, c, false⟩

def piece : Char → Read Unit
  | '(' => openGroup
  | ')' => closeGroup
  | '|' => startBranch
  | '[' => do addItem (← readSet)
  | '?' => repeatBy 0 (some 1)
  | '*' => repeatBy 0 none
  | '+' => repeatBy 1 none
  | '{' => repeatCounted
  | c => do addItem (← single c)

/-- Every piece takes at least one character. -/
def piecesWithin : Nat → Read Unit
  | 0 => return
  | n + 1 => do
      skipBlanks
      match ← next? with
      | none => return
      | some c =>
          piece c
          piecesWithin n

def Tree.read (text : List Char) : Except Mistake Tree := do
  let (_, s) ← (piecesWithin text.length).run { rest := text }
  match s.outer with
  | g :: _ => throw ⟨.groupUnclosed, ⟨g.start, g.start + 1⟩, none⟩
  | [] =>
      let t := s.level.tree s.column
      match t.tooDeep? depthLimit with
      | some place => throw ⟨.tooDeep depthLimit, place, none⟩
      | none => return t

end TreeTally.Pattern
