import TreeTally.Log.Line
import TreeTally.Text.Blank
import TreeTally.Text.Case

namespace TreeTally.Command

/-- A variable switches something on when it holds one of four words, in any case and between any
blanks. -/
def isOn (value : Option String) : Bool :=
  match value with
  | none => false
  | some v => ["1", "true", "yes", "on"].any fun w => w.toList == lowerCase (trimBlank v.toList)

/-- How the log is shown where there is no terminal: as one variable says, and if that leaves it
open, in colours only when another one asks for them and a third does not forbid them. -/
def logStyle (style noColour forceColour : Option String) : LogStyle :=
  let given (v : Option String) : Bool := v.any (· ≠ "")
  if style = some "always" then .coloured
  else if style = some "never" ∨ given noColour then .plain
  else if given forceColour then .coloured
  else .plain

end TreeTally.Command
