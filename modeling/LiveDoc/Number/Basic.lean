import LiveDoc.Decimal.Layout
import LiveDoc.Decimal.Reading

namespace LiveDoc

inductive Number where
  | int (n : Int64)
  | float (x : Float)
  deriving DecidableEq

namespace Number

def toFloat : Number → Float
  | .int n => Float.ofInt n.toInt
  | .float x => x

/-- Floats count as integers when they are whole and their magnitude is below this bound. -/
def wholeBound : Nat := 9200000000000000000

def wholeMagnitude? (m : Nat) (q : Int) : Option Nat :=
  if m = 0 then some 0
  else if 64 < q then none
  else
    let n := Decimal.shift m q
    if n < wholeBound ∧ Decimal.shift n (-q) = m then some n else none

def toInt64? : Number → Option Int64
  | .int n => some n
  | .float x =>
    match Decimal.Binary.ofFloat x with
    | .finite negative m q =>
      (wholeMagnitude? m q).map fun n => .ofInt (if negative then -(n : Int) else n)
    | _ => none

def isNaN : Number → Bool
  | .int _ => false
  | .float x => x.isNaN

def exactOr (exact : Int) (approximate : Float) : Number :=
  if Decimal.fitsWord exact then .int (.ofInt exact) else .float approximate

def add : Number → Number → Number
  | .int a, .int b => exactOr (a.toInt + b.toInt) (toFloat (.int a) + toFloat (.int b))
  | a, b => .float (a.toFloat + b.toFloat)

def sub : Number → Number → Number
  | .int a, .int b => exactOr (a.toInt - b.toInt) (toFloat (.int a) - toFloat (.int b))
  | a, b => .float (a.toFloat - b.toFloat)

def mul : Number → Number → Number
  | .int a, .int b => exactOr (a.toInt * b.toInt) (toFloat (.int a) * toFloat (.int b))
  | a, b => .float (a.toFloat * b.toFloat)

/-- Integers divide to an integer only without a remainder. -/
def div (a b : Number) : Number :=
  let approximate := a.toFloat / b.toFloat
  match a, b with
  | .int a, .int b =>
    if b.toInt ≠ 0 ∧ a.toInt.tmod b.toInt = 0 then exactOr (a.toInt.tdiv b.toInt) approximate
    else .float approximate
  | _, _ => .float approximate

/-- The remainder of truncating division. It is no integer where the quotient is none either. -/
def rem (a b : Number) : Number :=
  match a, b with
  | .int a, .int b =>
    if b.toInt ≠ 0 ∧ Decimal.fitsWord (a.toInt.tdiv b.toInt) then
      .int (.ofInt (a.toInt.tmod b.toInt))
    else .float (Decimal.remainder (toFloat (.int a)) (toFloat (.int b)))
  | _, _ => .float (Decimal.remainder a.toFloat b.toFloat)

def neg : Number → Number
  | .int a => exactOr (-a.toInt) (-toFloat (.int a))
  | .float x => .float (-x)

/-- Two integers are compared exactly, all other pairs as floats. -/
def equals : Number → Number → Bool
  | .int a, .int b => a == b
  | a, b => a.toFloat == b.toFloat

def compare? : Number → Number → Option Ordering
  | .int a, .int b => some (compare a.toInt b.toInt)
  | a, b =>
    let x := a.toFloat
    let y := b.toFloat
    if x < y then some .lt else if y < x then some .gt else if x == y then some .eq else none

def isZero : Number → Bool
  | .int n => n == 0
  | .float x => x == 0.0

def layout : Decimal.Layout := ⟨.up, none, false⟩

def text : Number → String
  | .int n => String.ofList (Decimal.intText n.toInt)
  | .float x =>
    match Decimal.Binary.ofFloat x with
    | .nan => "NaN"
    | .infinite negative => if negative then "-Infinity" else "Infinity"
    | .finite negative m q => if m = 0 then "0" else layout.finite negative m q

def sourceLayout : Decimal.Layout := ⟨.up, some (-3, 16), true⟩

def sourceFloat (x : Float) : String :=
  match Decimal.Binary.ofFloat x with
  | .nan => "NaN"
  | .infinite negative => if negative then "-inf" else "inf"
  | .finite negative m q => sourceLayout.finite negative m q

end Number

end LiveDoc
