import TreeTally.Log
import TreeTally.Text.Terminal

namespace TreeTally

inductive LogStyle
  | plain
  | coloured

namespace LogStyle

def escape (code : String) : String := "\x1b[" ++ code ++ "m"

def paint (s : LogStyle) (codes : List String) (text : String) : String :=
  match s with
  | plain => text
  | coloured => String.join (codes.map escape) ++ text ++ escape "0"

end LogStyle

namespace LogLevel

def colours : LogLevel → List String
  | error => ["1", "31"]
  | warn => ["33"]
  | info => ["32"]
  | debug => ["34"]
  | trace => ["36"]

def column (l : LogLevel) : String :=
  l.name ++ String.ofList (List.replicate (5 - l.name.length) ' ')

end LogLevel

namespace LogMessage

def indent (l : List Char) : List Char :=
  l.flatMap fun c => if c = '\n' then '\n' :: List.replicate 4 ' ' else [c]

def fullLine (s : LogStyle) (m : LogMessage) : String :=
  s.paint ["90"] "[" ++ s.paint m.level.colours m.level.column ++ " " ++ m.topic.path ++
    s.paint ["90"] "]" ++ " " ++ String.ofList (indent m.text.toList) ++ "\n"

def line (s : LogStyle) (m : LogMessage) : String :=
  match s with
  | .plain => String.ofList (Terminal.strip (m.fullLine .plain).toList)
  | .coloured => m.fullLine .coloured

end LogMessage

end TreeTally
