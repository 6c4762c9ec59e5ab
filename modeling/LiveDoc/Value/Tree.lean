import LiveDoc.Load.Error
import LiveDoc.Value.Heap
import LiveDoc.Yaml.Printer

namespace LiveDoc

/-- Integers of more than 64 bits become floats. -/
def Number.ofInt (n : Int) : Number :=
  if Decimal.fitsWord n then .int (.ofInt n) else .float (Float.ofInt n)

namespace Yaml.Tree

def scalar : Tree → Value
  | .null => .null
  | .bool b => .bool b
  | .int n => .number (.ofInt n)
  | .float x => .number (.float x)
  | .string s => .text s
  | .tagged _ tree => scalar tree
  | .sequence _ | .mapping _ => .undefined

def key : Tree → Except LoadError String
  | .null => .ok "null"
  | .bool b => .ok (toString b)
  | .int n => .ok (Number.ofInt n).text
  | .float x => .ok (Number.float x).text
  | .string s => .ok s
  | .tagged _ tree => key tree
  | tree => .error (.unsupportedKey (Printer.render tree))

end Yaml.Tree

namespace Heap

/-- The tree of a value that nests at most `depth` containers. What has no YAML form is null. -/
def treeIn (h : Heap) (depth : Nat) : Value → Option Yaml.Tree
  | .undefined | .null | .function _ | .accessor _ => some .null
  | .bool b => some (.bool b)
  | .number (.int n) => some (.int n.toInt)
  | .number (.float x) => some (.float x)
  | .text s => some (.string s)
  | .container r =>
    match h.get? r, depth with
    | none, _ => some .null
    | _, 0 => none
    | some (.sequence items), depth + 1 =>
      (items.toList.mapM (treeIn h depth)).map .sequence
    | some (.mapping entries), depth + 1 =>
      let entry (e : String × Value) := (treeIn h depth e.2).map fun tree => (.string e.1, tree)
      (entries.mapM entry).map .mapping

def tree? (h : Heap) (v : Value) : Option Yaml.Tree :=
  h.treeIn h.size v

end Heap

end LiveDoc
