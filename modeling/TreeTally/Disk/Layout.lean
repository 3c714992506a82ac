import TreeTally.Disk.Builder
import TreeTally.Text.Decimal

namespace TreeTally.Disk

/-- A line has three fields set off by tabs: a letter for the kind, the size of a node, the target
of a link or the path of the entry that gets another name, and the path. -/
def addLine (d : Disk) (line : String) : Disk :=
  match line.splitOn "\t" with
  | [kind, value, path] =>
      let p := Path.ofString path
      if kind = "d" then d.addFolder p
      else if kind = "f" then d.add p (.file ((Decimal.parse? value).getD 0))
      else if kind = "l" then d.add p (.link value.toList)
      else if kind = "h" then d.addHardLink p (.ofString value)
      else if kind = "s" then d.add p (.special ((Decimal.parse? value).getD 0))
      else d
  | _ => d

/-- Lines that are not of this form are passed over. -/
def ofLayout (text : String) : Disk := (text.splitOn "\n").foldl addLine machine

end TreeTally.Disk
