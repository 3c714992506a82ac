import TreeTally.Size
import TreeTally.Tally

namespace TreeTally.Command

def summaryLine (t : Tally) : String :=
  toString t.files ++ " files, " ++ toString t.folders ++ " folders, " ++ Size.text t.bytes ++
    " (" ++ toString t.bytes ++ " bytes)"

def lowerBoundNote (t : Tally) : String :=
  "note: " ++ toString t.unreadable ++
    " folder(s) could not be read; totals are a lower bound"

def plainReport (t : Tally) : String :=
  summaryLine t ++ "\n" ++ if t.isLowerBound then lowerBoundNote t ++ "\n" else ""

inductive JsonValue
  | number (n : Nat)
  | flag (b : Bool)

def JsonValue.text : JsonValue → String
  | number n => toString n
  | flag b => if b then "true" else "false"

/-- The totals of a cancelled count are a lower bound too. -/
def jsonFields (t : Tally) (cancelled : Bool) : List (String × JsonValue) :=
  [("total_size", .number t.bytes), ("file_count", .number t.files),
   ("directory_count", .number t.folders), ("unreadable_directory_count", .number t.unreadable),
   ("lower_bound", .flag (t.isLowerBound || cancelled)), ("cancelled", .flag cancelled)]

def jsonObject (fields : List (String × JsonValue)) : String :=
  "\x7b\n" ++ ",\n".intercalate (fields.map fun f => "  \"" ++ f.1 ++ "\": " ++ f.2.text) ++ "\n\x7d"

def jsonReport (t : Tally) (cancelled : Bool) : String := jsonObject (jsonFields t cancelled)

end TreeTally.Command
