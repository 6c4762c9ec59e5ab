import LiveDoc.Decimal.Reading
import LiveDoc.Yaml.Tree

namespace LiveDoc.Yaml.Resolution

def isNull (s : String) : Bool :=
  s = "null" || s = "Null" || s = "NULL" || s = "~"

def bool? (s : String) : Option Bool :=
  if s = "true" ∨ s = "True" ∨ s = "TRUE" then some true
  else if s = "false" ∨ s = "False" ∨ s = "FALSE" then some false
  else none

/-- Digits after a leading zero make a text of them, not a number. -/
def hasLeadingZero (cs : List Char) : Bool :=
  let digits :=
    match cs with
    | '-' :: rest => rest
    | '+' :: rest => rest
    | rest => rest
  match digits with
  | '0' :: c :: rest => (c :: rest).all Decimal.isDigit
  | _ => false

def natural? : List Char → Option Nat
  | '0' :: 'x' :: digits => Decimal.natural? 16 digits
  | '0' :: 'o' :: digits => Decimal.natural? 8 digits
  | '0' :: 'b' :: digits => Decimal.natural? 2 digits
  | digits => if hasLeadingZero digits then none else Decimal.natural? 10 digits

def integer? : List Char → Option Int
  | '-' :: cs => (natural? cs).map fun n => -(n : Int)
  | '+' :: cs => (natural? cs).map fun n => (n : Int)
  | cs => (natural? cs).map fun n => (n : Int)

/-- A finite float; infinities and not-a-number have names of their own. -/
def float? (s : String) : Option Float :=
  let unsigned : Option (List Char) :=
    match s.toList with
    | '+' :: '+' :: _ => none
    | '+' :: '-' :: _ => none
    | '+' :: cs => some cs
    | cs => some cs
  match unsigned with
  | none => none
  | some cs =>
    let name := String.ofList cs
    if name = ".inf" ∨ name = ".Inf" ∨ name = ".INF" then some (1.0 / 0.0)
    else if s = "-.inf" ∨ s = "-.Inf" ∨ s = "-.INF" then some (-1.0 / 0.0)
    else if s = ".nan" ∨ s = ".NaN" ∨ s = ".NAN" then some (0.0 / 0.0)
    else (Decimal.float? cs).filter (·.isFinite)

inductive Mismatch where
  | wide (n : Int)
  | wrong (text expected : String)
  deriving DecidableEq, Repr

/-- Integers from `-2 ^ 63` to `2 ^ 64 - 1` are values; those of up to 128 bits are refused. -/
def integer (n : Int) : Except Mismatch (Option Tree) :=
  if -Int.pow 2 63 ≤ n ∧ n < Int.pow 2 64 then .ok (some (.int n))
  else if -Int.pow 2 127 ≤ n ∧ n < Int.pow 2 128 then .error (.wide n)
  else .ok none

def wideOrFloat (s : String) : Except Mismatch Tree := do
  match ← ((integer? s.toList).elim (.ok none) integer) with
  | some tree => return tree
  | none =>
    match if hasLeadingZero s.toList then none else float? s with
    | some x => return .float x
    | none => return .string s

def plain (s : String) : Except Mismatch Tree :=
  if s = "" ∨ isNull s then .ok .null
  else
    match bool? s with
    | some b => .ok (.bool b)
    | none => wideOrFloat s

def demand (s expected : String) (value : Option Tree) : Except Mismatch Tree :=
  match value with
  | some tree => .ok tree
  | none => .error (.wrong s expected)

/-- An integer out of range does not count as one here. -/
def taggedInt (s : String) : Except Mismatch Tree := do
  demand s "an integer" (← (integer? s.toList).elim (.ok none) integer)

def core? (tag s : String) : Option (Except Mismatch Tree) :=
  if tag = "tag:yaml.org,2002:bool" then some (demand s "a boolean" ((bool? s).map .bool))
  else if tag = "tag:yaml.org,2002:int" then some (taggedInt s)
  else if tag = "tag:yaml.org,2002:float" then some (demand s "a float" ((float? s).map .float))
  else if tag = "tag:yaml.org,2002:null" then
    some (demand s "null" (if isNull s then some .null else none))
  else none

end LiveDoc.Yaml.Resolution
