import TreeTally.Text.Pieces

namespace TreeTally.Pattern

inductive Cause
  | setUnclosed
  | setEscape
  | rangeReversed
  | rangeEnd
  | numberTooLarge
  | countMissing
  | countUnclosed
  | countReversed
  | hexMissing
  | hexNoCharacter
  | hexDigit
  | escapeUnfinished
  | escapeUnknown
  | backReference
  | flagDangling
  | flagTwice
  | negationTwice
  | flagsUnfinished
  | flagUnknown
  | nameTwice
  | nameMissing
  | nameCharacter
  | nameUnfinished
  | groupUnclosed
  | groupUnopened
  | nothingToRepeat
  | edgeUnclosed
  | edgeUnknown
  | edgeUnfinished
  | property
  | lookAround
  | tooDeep (limit : Nat)
  | propertyUnknown
  | valueUnknown
  | classUnknown
  | caseUnknown
  | beyondAscii
  | noText
  deriving DecidableEq

def Cause.message : Cause → String
  | setUnclosed => "unclosed character class"
  | setEscape => "invalid escape sequence found in character class"
  | rangeReversed => "invalid character class range, the start must be <= the end"
  | rangeEnd => "invalid range boundary, must be a literal"
  | numberTooLarge => "decimal literal invalid"
  | countMissing => "repetition quantifier expects a valid decimal"
  | countUnclosed => "unclosed counted repetition"
  | countReversed => "invalid repetition count range, the start must be <= the end"
  | hexMissing => "hexadecimal literal empty"
  | hexNoCharacter => "hexadecimal literal is not a Unicode scalar value"
  | hexDigit => "invalid hexadecimal digit"
  | escapeUnfinished => "incomplete escape sequence, reached end of pattern prematurely"
  | escapeUnknown => "unrecognized escape sequence"
  | backReference => "backreferences are not supported"
  | flagDangling => "dangling flag negation operator"
  | flagTwice => "duplicate flag"
  | negationTwice => "flag negation operator repeated"
  | flagsUnfinished => "expected flag but got end of regex"
  | flagUnknown => "unrecognized flag"
  | nameTwice => "duplicate capture group name"
  | nameMissing => "empty capture group name"
  | nameCharacter => "invalid capture group character"
  | nameUnfinished => "unclosed capture group name"
  | groupUnclosed => "unclosed group"
  | groupUnopened => "unopened group"
  | nothingToRepeat => "repetition operator missing expression"
  | edgeUnclosed =>
      "special word boundary assertion is either unclosed or contains an invalid character"
  | edgeUnknown =>
      "unrecognized special word boundary assertion, valid choices are: " ++
        "start, end, start-half or end-half"
  | edgeUnfinished =>
      "found either the beginning of a special word boundary or a bounded repetition " ++
        "on a \\b with an opening brace, but no closing brace"
  | property => "invalid Unicode character class"
  | lookAround => "look-around, including look-ahead and look-behind, is not supported"
  | tooDeep n =>
      "exceed the maximum number of nested parentheses/brackets (" ++ toString n ++ ")"
  | propertyUnknown => "Unicode property not found"
  | valueUnknown => "Unicode property value not found"
  | classUnknown =>
      "Unicode-aware Perl class not found (make sure the unicode-perl feature is enabled)"
  | caseUnknown =>
      "Unicode-aware case insensitivity matching is not available " ++
        "(make sure the unicode-case feature is enabled)"
  | beyondAscii => "Unicode not allowed here"
  | noText => "pattern can match invalid UTF-8"

/-- From the character at the first place up to the one at the second, counted from zero. -/
structure Span where
  start : Nat
  stop : Nat
  deriving DecidableEq

structure Mistake where
  cause : Cause
  place : Span
  earlier : Option Span := none

def lineOf (pattern : List Char) (n : Nat) : Nat := (pattern.take n).count '\n'

def columnOf (pattern : List Char) (n : Nat) : Nat :=
  ((pattern.take n).reverse.takeWhile (· ≠ '\n')).length

def Span.line? (pattern : List Char) (s : Span) : Option Nat :=
  if lineOf pattern s.start = lineOf pattern s.stop then some (lineOf pattern s.start) else none

def underline (pattern : List Char) (column : Nat) : List Span → List Char
  | [] => []
  | s :: l =>
      let start := columnOf pattern s.start
      let width := max 1 (columnOf pattern s.stop - start)
      List.replicate (start - column) ' ' ++ List.replicate width '^'
        ++ underline pattern (max column start + width) l

def padLeft (width : Nat) (l : List Char) : List Char := List.replicate (width - l.length) ' ' ++ l

/-- A carriage return before the end of a line belongs to that end. -/
def bareLine (l : List Char) : List Char := if l.getLast? = some '\r' then l.dropLast else l

def linesOf (pattern : List Char) : List (List Char) :=
  match (piecesAt '\n' pattern).reverse with
  | [] => []
  | last :: l => (l.map bareLine).reverse ++ if last.isEmpty then [] else [last]

def margin (lines width n : Nat) : List Char :=
  if lines ≤ 1 then List.replicate 4 ' ' else padLeft width (toString (n + 1)).toList ++ [':', ' ']

def marked (pattern : List Char) (spans : List Span) : List Char :=
  let lines := (piecesAt '\n' pattern).length
  let width := (toString lines).length
  let placed := spans.map fun s => (s.line? pattern, s)
  (linesOf pattern).zipIdx.flatMap fun (l, n) =>
    let here := placed.filterMap fun p => if p.1 = some n then some p.2 else none
    let blanks := List.replicate (margin lines width n).length ' '
    margin lines width n ++ l ++ ['\n']
      ++ if here.isEmpty then [] else blanks ++ underline pattern 0 here ++ ['\n']

def Span.words (pattern : List Char) (s : Span) : String :=
  "on line " ++ toString (lineOf pattern s.start + 1) ++
    " (column " ++ toString (columnOf pattern s.start + 1) ++
    ") through line " ++ toString (lineOf pattern s.stop + 1) ++
    " (column " ++ toString (columnOf pattern s.stop) ++ ")\n"

def Mistake.message (pattern : List Char) (m : Mistake) : String :=
  let spans := m.earlier.toList ++ [m.place]
  let text := String.ofList (marked pattern spans)
  let body :=
    if pattern.contains '\n' then
      let rule := String.ofList (List.replicate 79 '~') ++ "\n"
      let long := spans.filter fun s => (s.line? pattern).isNone
      rule ++ text ++ rule ++ String.join (long.map (·.words pattern))
    else text
  "regex parse error:\n" ++ body ++ "error: " ++ m.cause.message

end TreeTally.Pattern
