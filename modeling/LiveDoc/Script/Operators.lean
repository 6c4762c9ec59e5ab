import LiveDoc.Value.Text

namespace LiveDoc

namespace Value

/-- Texts are read as integers if they are in range, and else as floats. -/
def numberOfText (s : String) : Number :=
  match Text.trim s.toList with
  | [] => .int 0
  | cs =>
    match Decimal.int64? cs with
    | some n => .int n
    | none => .float ((Decimal.float? cs).getD (0.0 / 0.0))

def toNumber : Value → Number
  | .null => .int 0
  | .bool b => .int (if b then 1 else 0)
  | .number n => n
  | .text s => numberOfText s
  | _ => .float (0.0 / 0.0)

def concatenates : Value → Bool
  | .text _ | .container _ | .function _ => true
  | _ => false

/-- The same kind and the same value; containers and functions only equal themselves. -/
def strictEquals : Value → Value → Bool
  | .undefined, .undefined => true
  | .null, .null => true
  | .bool a, .bool b => a = b
  | .number a, .number b => a.equals b
  | .text a, .text b => a = b
  | .container r, .container s => r = s
  | .function f, .function g => f.isSame g
  | _, _ => false

/-- Missing values equal each other only; booleans equal what has their number, and so do numbers
and texts among each other. -/
def looseEquals : Value → Value → Bool
  | .undefined, b | .null, b => b.isUndefined || b.isNull
  | _, .undefined | _, .null => false
  | .bool a, b => (toNumber (.bool a)).equals b.toNumber
  | a, .bool b => a.toNumber.equals (toNumber (.bool b))
  | .number a, .text b => a.equals (numberOfText b)
  | .text a, .number b => (numberOfText a).equals b
  | a, b => strictEquals a b

/-- Two texts by their characters, all else by number; none if there is no number. -/
def compare? : Value → Value → Option Ordering
  | .text a, .text b => some (compare a b)
  | a, b => a.toNumber.compare? b.toNumber

end Value

namespace Script

def arithmetic (operation : Number → Number → Number) (a b : Value) : Value :=
  .number (operation a.toNumber b.toNumber)

def ordered (test : Ordering → Bool) (a b : Value) : Value :=
  .bool ((a.compare? b).any test)

def sum? (h : Heap) (a b : Value) : Option Value :=
  if a.concatenates || b.concatenates then do return .text ((← h.text? a) ++ (← h.text? b))
  else some (arithmetic Number.add a b)

def BinaryOp.result? (h : Heap) (op : BinaryOp) (a b : Value) : Option Value :=
  match op with
  | add => sum? h a b
  | sub => some (arithmetic Number.sub a b)
  | mul => some (arithmetic Number.mul a b)
  | div => some (arithmetic Number.div a b)
  | rem => some (arithmetic Number.rem a b)
  | eq => some (.bool (a.looseEquals b))
  | notEq => some (.bool !(a.looseEquals b))
  | strictEq => some (.bool (a.strictEquals b))
  | strictNotEq => some (.bool !(a.strictEquals b))
  | lt => some (ordered (·.isLT) a b)
  | ltEq => some (ordered (·.isLE) a b)
  | gt => some (ordered (·.isGT) a b)
  | gtEq => some (ordered (·.isGE) a b)

def UnaryOp.apply (op : UnaryOp) (v : Value) : Value :=
  match op with
  | not => .bool !v.isTruthy
  | neg => .number v.toNumber.neg
  | plus => .number v.toNumber
  | typeof => .text v.typeName

end Script

/-- The one of two values whose text is not there, if one of them has none; the first is asked for
its text before the second. -/
def Heap.textless (h : Heap) (a b : Value) : Value :=
  if (h.text? a).isNone then a else b

def Heap.propertyName? (h : Heap) : Value → Option String
  | .number n =>
    match n.toInt64? with
    | some i => some (Number.int i).text
    | none => some n.text
  | v => h.text? v

end LiveDoc
