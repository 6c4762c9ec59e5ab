import LiveDoc.Decimal.Shortest

namespace LiveDoc.Decimal

structure Layout where
  tie : Tie
  /-- The places of the decimal point that are written without an exponent; all, if none are named.
  -/
  places : Option (Int × Int)
  wholePoint : Bool

def Layout.isPositional (l : Layout) (point : Int) : Bool :=
  match l.places with
  | none => true
  | some (least, greatest) => least ≤ point && point ≤ greatest

def positional (wholePoint : Bool) (d : Digits) : List Char :=
  let digits := d.list
  let point := d.point
  if 0 ≤ d.exponent then
    digits ++ List.replicate d.exponent.toNat '0' ++ if wholePoint then ['.', '0'] else []
  else if 0 < point then
    digits.take point.toNat ++ '.' :: digits.drop point.toNat
  else '0' :: '.' :: List.replicate (-point).toNat '0' ++ digits

def intText (n : Int) : List Char :=
  if n < 0 then '-' :: Nat.toDigits 10 n.natAbs else Nat.toDigits 10 n.natAbs

def scientific (d : Digits) : List Char :=
  match d.list with
  | [] => []
  | [c] => c :: 'e' :: intText (d.point - 1)
  | c :: cs => c :: '.' :: cs ++ 'e' :: intText (d.point - 1)

def Layout.text (l : Layout) (d : Digits) : List Char :=
  if l.isPositional d.point then positional l.wholePoint d else scientific d

def Layout.finite (l : Layout) (negative : Bool) (m : Nat) (q : Int) : String :=
  let digits := l.text (shortest l.tie m q)
  String.ofList (if negative then '-' :: digits else digits)

end LiveDoc.Decimal
