import LiveDoc.Decimal.Binary

namespace LiveDoc.Decimal

structure Digits where
  significand : Nat
  exponent : Int
  deriving DecidableEq, Repr

def Digits.list (d : Digits) : List Char :=
  Nat.toDigits 10 d.significand

/-- How many digits stand before the decimal point; none or a negative number for values below 0.1.
-/
def Digits.point (d : Digits) : Int :=
  d.list.length + d.exponent

def Digits.trim (significand : Nat) (exponent : Int) : Digits :=
  if h : significand ≠ 0 ∧ significand % 10 = 0 then trim (significand / 10) (exponent + 1)
  else ⟨significand, exponent⟩
termination_by significand
decreasing_by exact Nat.div_lt_self (by omega) (by decide)

inductive Tie where
  | up
  | even
  deriving DecidableEq, Repr

structure Ratio where
  num : Nat
  den : Nat

namespace Ratio

def ofPower (m : Nat) (base : Nat) (k : Int) : Ratio :=
  if k < 0 then ⟨m, Nat.pow base (-k).toNat⟩ else ⟨m * Nat.pow base k.toNat, 1⟩

def lt (a b : Ratio) : Bool := a.num * b.den < b.num * a.den

def le (a b : Ratio) : Bool := a.num * b.den ≤ b.num * a.den

def gap (a b : Ratio) : Ratio := ⟨b.num * a.den - a.num * b.den, a.den * b.den⟩

def floorIn (a : Ratio) (k : Int) : Nat :=
  if k < 0 then a.num * Nat.pow 10 (-k).toNat / a.den else a.num / (a.den * Nat.pow 10 k.toNat)

/-- The `p` for which `a` is at least `10 ^ (p - 1)` and less than `10 ^ p`, for `a` at least `10 ^
(-324)`. -/
def point (a : Ratio) : Int :=
  (Nat.toDigits 10 (a.floorIn (-324))).length - 324

end Ratio

/-- The reals that read as the double `m * 2 ^ q`: those from `low` to `high`. -/
structure Rounding where
  value : Ratio
  low : Ratio
  high : Ratio
  closed : Bool

def Rounding.ofBinary (m : Nat) (q : Int) : Rounding where
  value := .ofPower (4 * m) 2 (q - 2)
  low := .ofPower (4 * m - if m = Nat.pow 2 52 ∧ q ≠ leastExponent then 1 else 2) 2 (q - 2)
  high := .ofPower (4 * m + 2) 2 (q - 2)
  closed := m % 2 = 0

def Rounding.contains (r : Rounding) (a : Ratio) : Bool :=
  if r.closed then r.low.le a && a.le r.high else r.low.lt a && a.lt r.high

/-- The multiple of `10 ^ k` nearest to the value, if one of its two neighbours reads back. -/
def Rounding.onGrid (r : Rounding) (tie : Tie) (k : Int) : Option Nat :=
  let below := r.value.floorIn k
  let down := Ratio.ofPower below 10 k
  let up := Ratio.ofPower (below + 1) 10 k
  match r.contains down, r.contains up with
  | false, false => none
  | true, false => some below
  | false, true => some (below + 1)
  | true, true =>
    let toDown := down.gap r.value
    let toUp := r.value.gap up
    if toDown.lt toUp then some below
    else if toUp.lt toDown then some (below + 1)
    else if tie = .even ∧ below % 2 = 0 then some below
    else some (below + 1)

/-- Seventeen digits always suffice. -/
def Rounding.shortest (r : Rounding) (tie : Tie) : Digits :=
  let point := r.value.point
  let grids := (List.range 17).map (fun n => point - (n + 1 : Nat))
  match grids.findSome? (fun k => (r.onGrid tie k).map (Digits.trim · k)) with
  | some d => d
  | none => ⟨0, 0⟩

def shortest (tie : Tie) (m : Nat) (q : Int) : Digits :=
  if m = 0 then ⟨0, 0⟩ else (Rounding.ofBinary m q).shortest tie

end LiveDoc.Decimal
