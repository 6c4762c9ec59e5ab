import LiveDoc.Decimal.Layout

namespace LiveDoc.Yaml

/-- A node. The text of a tag is kept without the `!` that it is shown with. -/
inductive Tree where
  | null
  | bool (b : Bool)
  | int (n : Int)
  | float (x : Float)
  | string (s : String)
  | sequence (items : List Tree)
  | mapping (entries : List (Tree × Tree))
  | tagged (tag : String) (value : Tree)
  deriving Inhabited

namespace Tree

def withTag (tag : String) (value : Tree) : Tree :=
  match tag.toList with
  | '!' :: c :: cs => .tagged (String.ofList (c :: cs)) value
  | _ => .tagged tag value

def sameFloat (x y : Float) : Bool :=
  x == y || x.isNaN && y.isNaN

mutual

/-- Equality of nodes. The order of a mapping's entries does not matter. -/
def same : Tree → Tree → Bool
  | .null, .null => true
  | .bool a, .bool b => a == b
  | .int a, .int b => a == b
  | .float a, .float b => sameFloat a b
  | .string a, .string b => a == b
  | .sequence as, .sequence bs => sameItems as bs
  | .mapping as, .mapping bs => as.length == bs.length && entriesWithin as bs
  | .tagged a v, .tagged b w => a == b && same v w
  | _, _ => false
termination_by structural t => t

def sameItems : List Tree → List Tree → Bool
  | [], [] => true
  | a :: as, b :: bs => same a b && sameItems as bs
  | _, _ => false
termination_by structural ts => ts

def entriesWithin : List (Tree × Tree) → List (Tree × Tree) → Bool
  | [], _ => true
  | (k, v) :: es, others =>
    others.any (fun other => same k other.1 && same v other.2) && entriesWithin es others
termination_by structural es => es

end

def floatLayout : Decimal.Layout := ⟨.even, some (-4, 16), true⟩

def floatText (x : Float) : String :=
  match Decimal.Binary.ofFloat x with
  | .nan => ".nan"
  | .infinite negative => if negative then "-.inf" else ".inf"
  | .finite negative m q => floatLayout.finite negative m q

def intText (n : Int) : String :=
  String.ofList (Decimal.intText n)

end Tree

end LiveDoc.Yaml
