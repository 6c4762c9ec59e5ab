namespace LiveDoc.Decimal

/-- A double as it is written in its bits: not a number, an infinity, or `± mantissa * 2 ^
exponent`. -/
inductive Binary where
  | nan
  | infinite (negative : Bool)
  | finite (negative : Bool) (mantissa : Nat) (exponent : Int)
  deriving DecidableEq, Repr

def leastExponent : Int := -1074

def Binary.ofBits (bits : UInt64) : Binary :=
  let n := bits.toNat
  let negative := decide (Nat.pow 2 63 ≤ n)
  let fraction := n % Nat.pow 2 52
  match n / Nat.pow 2 52 % Nat.pow 2 11 with
  | 0 => .finite negative fraction leastExponent
  | 2047 => if fraction = 0 then .infinite negative else .nan
  | e => .finite negative (Nat.pow 2 52 + fraction) (leastExponent + (e - 1 : Nat))

def Binary.ofFloat (x : Float) : Binary :=
  .ofBits x.toBits

/-- `m * 2 ^ k`, where a negative power drops the low bits. -/
def shift (m : Nat) (k : Int) : Nat :=
  if k < 0 then m / Nat.pow 2 (-k).toNat else m * Nat.pow 2 k.toNat

def ofExact (negative : Bool) (m : Nat) (q : Int) : Float :=
  let top := max (q + m.log2 - 52) leastExponent
  let mantissa := shift m (q - top)
  let field := if mantissa < Nat.pow 2 52 then 0 else (top - leastExponent + 1).toNat
  let magnitude := field * Nat.pow 2 52 + mantissa % Nat.pow 2 52
  Float.ofBits (.ofNat (if negative then Nat.pow 2 63 + magnitude else magnitude))

/-- The remainder of truncating division: exact, and with the sign of the dividend. -/
def remainder (x y : Float) : Float :=
  match Binary.ofFloat x, Binary.ofFloat y with
  | .finite _ _ _, .infinite _ => x
  | .finite negative m q, .finite _ m' q' =>
    if m' = 0 then 0.0 / 0.0
    else
      let least := min q q'
      ofExact negative (shift m (q - least) % shift m' (q' - least)) least
  | _, _ => 0.0 / 0.0

end LiveDoc.Decimal
