import TreeTally.Log
import TreeTally.Text.Pattern.Accept
import TreeTally.Text.Blank
import TreeTally.Text.Case
import TreeTally.Text.Pieces

namespace TreeTally

/-- Shows what ranks no higher, of the topics whose path begins as given, or of all. -/
structure LogRule where
  rank : Nat
  topic : Option (List Char) := none

namespace LogRule

def ranks : List (String × Nat) :=
  [("off", 0), ("error", 1), ("warn", 2), ("info", 3), ("debug", 4), ("trace", 5)]

def rank? (l : List Char) : Option Nat :=
  (ranks.find? fun r => r.1.toList == lowerCase l).map Prod.snd

def fullRank : Nat := 5

def covers (r : LogRule) (path : List Char) : Bool := r.topic.all (·.isPrefixOf path)

def weight (r : LogRule) : Nat := (r.topic.getD []).length

def addTo (r : LogRule) : List LogRule → List LogRule
  | [] => [r]
  | s :: l => if s.topic = r.topic then r :: l else s :: r.addTo l

/-- A level for all topics, a topic to be shown in full, or a topic and its level; without the level
the topic is shown in full. Else the part that is wrong. -/
def read (l : List Char) : Except (List Char) LogRule :=
  match piecesAt '=' l with
  | [one] => .ok (match rank? one with
      | some n => ⟨n, none⟩
      | none => ⟨fullRank, some one⟩)
  | [topic, level] =>
      let level := trimBlank level
      if level.isEmpty then .ok ⟨fullRank, some topic⟩
      else match rank? level with
        | some n => .ok ⟨n, some topic⟩
        | none => .error level
  | _ => .error l

end LogRule

/-- Of the rules the one that names most of a topic counts; the pattern is to be found in the
message besides. -/
structure LogFilter where
  rules : List LogRule := []
  pattern : Option Pattern := none

namespace LogFilter

inductive Complaint
  | rule (text : List Char)
  | slashes (setting : List Char)
  | pattern (text : List Char) (reason : Pattern.Refused)

def Complaint.message : Complaint → String
  | rule t => "invalid logging spec '" ++ String.ofList t ++ "'"
  | slashes t => "invalid logging spec '" ++ String.ofList t ++ "' (too many '/'s)"
  | pattern t r => "invalid regex filter - " ++ r.message t

def Complaint.line (c : Complaint) : String := "warning: " ++ c.message ++ ", ignoring it\n"

def readRules : List (List Char) → List LogRule → List LogRule × List Complaint
  | [], rules => (rules, [])
  | t :: l, rules =>
      let t := trimBlank t
      if t.isEmpty then readRules l rules
      else match LogRule.read t with
        | .ok r => readRules l (r.addTo rules)
        | .error e => let (rules, c) := readRules l rules; (rules, .rule e :: c)

/-- Of two rules that name as much, the later counts. -/
def rank (f : LogFilter) (path : List Char) : Nat :=
  let best := f.rules.foldl (fun (b : Option LogRule) r =>
    if r.covers path && b.all (·.weight ≤ r.weight) then some r else b) none
  (best.map LogRule.rank).getD 0

def shows (f : LogFilter) (m : LogMessage) : Bool :=
  decide (m.level.rank ≤ f.rank m.topic.path.toList) && f.pattern.all (·.occursIn m.text.toList)

def ofRules (rules : List LogRule) : LogFilter where
  rules := if rules.isEmpty then [⟨1, none⟩] else rules

def read (setting : List Char) : LogFilter × List Complaint :=
  match piecesAt '/' setting with
  | [rules] => let (r, c) := readRules (piecesAt ',' rules) []; (.ofRules r, c)
  | [rules, pattern] =>
      let (r, c) := readRules (piecesAt ',' rules) []
      match Pattern.read pattern with
      | .ok p => ({ ofRules r with pattern := some p }, c)
      | .error e => (.ofRules r, c ++ [.pattern pattern e])
  | _ => (.ofRules [], [.slashes setting])

end LogFilter

end TreeTally
