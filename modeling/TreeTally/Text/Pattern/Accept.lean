import TreeTally.Text.Pattern.Meaning
import TreeTally.Text.Pattern.Program
import TreeTally.Text.Pattern.Reader

namespace TreeTally.Pattern

inductive Refused
  | mistake (m : Mistake)
  | tooLarge
  | noLetters

def Refused.message (pattern : List Char) : Refused → String
  | mistake m => m.message pattern
  | tooLarge => "Compiled regex exceeds size limit of " ++ toString memoryLimit ++ " bytes."
  | noLetters => "error building NFA"

/-- A pattern has to fit in memory both ways, and to keep to words of ASCII. -/
def read (text : List Char) : Except Refused Pattern :=
  match (do (← Tree.read text).pattern.run {}) with
  | .error m => .error (.mistake m)
  | .ok (p, _) =>
      if !p.fits .forward then .error .tooLarge
      else if p.needsLetters then .error .noLetters
      else if !p.fits .backward then .error .tooLarge
      else .ok p

end TreeTally.Pattern
