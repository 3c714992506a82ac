import TreeTally.Text.Pieces

namespace TreeTally

inductive Part
  | root
  | here
  | up
  | name (n : List Char)
  deriving DecidableEq

/-- Parts are ordered by kind, names by their characters, which is also their order by bytes. -/
def Part.key : Part → List Nat
  | root => [0]
  | here => [1]
  | up => [2]
  | name n => 3 :: n.map Char.toNat

theorem Part.key_inj {a b : Part} (h : a.key = b.key) : a = b := by
  cases a <;> cases b <;> simp_all [Part.key]
  exact (List.map_inj_right fun _ _ h => Char.toNat_inj.1 h).1 h

/-- A dot counts only as the first piece of a relative path. -/
def Part.ofPiece? (first : Bool) : List Char → Option Part
  | [] => none
  | ['.'] => if first then some .here else none
  | ['.', '.'] => some .up
  | n => some (.name n)

/-- A path keeps the text it was given, and what it names is the list of its parts: repeated
slashes, a trailing slash and inner dots do not count, while a leading dot and `..` do. -/
structure Path where
  chars : List Char

namespace Path

def ofString (s : String) : Path := ⟨s.toList⟩

def display (p : Path) : String := String.ofList p.chars

def marksFrom (first : Bool) (before : List Char) : List (List Char) → List (Part × List Char)
  | [] => []
  | p :: ps =>
      let rest := marksFrom false (before ++ p ++ ['/']) ps
      match Part.ofPiece? first p with
      | some q => (q, before ++ p) :: rest
      | none => rest

def marks (p : Path) : List (Part × List Char) :=
  match p.chars with
  | '/' :: r => (.root, ['/']) :: marksFrom false ['/'] (piecesAt '/' r)
  | t => marksFrom true [] (piecesAt '/' t)

def parts (p : Path) : List Part := p.marks.map Prod.fst

def Same (p q : Path) : Prop := p.parts = q.parts

instance (p q : Path) : Decidable (p.Same q) := inferInstanceAs (Decidable (p.parts = q.parts))

def key (p : Path) : List (List Nat) := p.parts.map Part.key

theorem same_iff_key {p q : Path} : p.Same q ↔ p.key = q.key :=
  (List.map_inj_right fun _ _ h => Part.key_inj h).symm

/-- The paths above the last of some marks, given last first. A relative path ends at the empty
one, an absolute path at the root. -/
def above : List (Part × List Char) → List Path
  | [] => []
  | [(.root, _)] => []
  | [_] => [⟨[]⟩]
  | _ :: m :: ms => ⟨m.2⟩ :: above (m :: ms)

def ancestors (p : Path) : List Path := p :: above p.marks.reverse

def parent? (p : Path) : Option Path := (above p.marks.reverse).head?

def fileName? (p : Path) : Option (List Char) :=
  match p.parts.getLast? with
  | some (.name n) => some n
  | _ => none

/-- An absolute name replaces the path; any other is set off by exactly one slash of its own. -/
def join (p : Path) (n : List Char) : Path :=
  if n.head? = some '/' then ⟨n⟩
  else if p.chars = [] ∨ p.chars.getLast? = some '/' then ⟨p.chars ++ n⟩
  else ⟨p.chars ++ '/' :: n⟩

end Path

end TreeTally
