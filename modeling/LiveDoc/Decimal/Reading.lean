import LiveDoc.Decimal.Shortest

namespace LiveDoc.Decimal

def isDigit (c : Char) : Bool :=
  '0' ≤ c && c ≤ '9'

def digitValue? (base : Nat) (c : Char) : Option Nat :=
  let value :=
    if isDigit c then c.toNat - '0'.toNat
    else if 'a' ≤ c && c ≤ 'z' then c.toNat - 'a'.toNat + 10
    else if 'A' ≤ c && c ≤ 'Z' then c.toNat - 'A'.toNat + 10
    else base
  if value < base then some value else none

def naturalFrom? (base acc : Nat) : List Char → Option Nat
  | [] => some acc
  | c :: cs =>
    match digitValue? base c with
    | none => none
    | some d => naturalFrom? base (acc * base + d) cs

def natural? (base : Nat) : List Char → Option Nat
  | [] => none
  | cs => naturalFrom? base 0 cs

def splitSign : List Char → Bool × List Char
  | '-' :: cs => (true, cs)
  | '+' :: cs => (false, cs)
  | cs => (false, cs)

def integer? (base : Nat) (cs : List Char) : Option Int :=
  match splitSign cs with
  | (negative, digits) => (natural? base digits).map fun n => if negative then -(n : Int) else n

def unsigned? (base : Nat) : List Char → Option Nat
  | '+' :: cs => natural? base cs
  | cs => natural? base cs

/-- The double nearest to `m * 10 ^ e`. -/
def nearest (negative : Bool) (m : Nat) (e : Int) : Float :=
  let point : Int := (Nat.toDigits 10 m).length + e
  let magnitude :=
    if m = 0 ∨ point < -330 then 0.0
    else if 330 < point then 1.0 / 0.0
    else Float.ofScientific m (decide (e < 0)) e.natAbs
  if negative then -magnitude else magnitude

def lower (c : Char) : Char :=
  if 'A' ≤ c && c ≤ 'Z' then Char.ofNat (c.toNat + 32) else c

def exponent? : List Char → Option Int
  | [] => some 0
  | c :: cs => if lower c = 'e' then integer? 10 cs else none

def decimal? (negative : Bool) (cs : List Char) : Option Float :=
  let whole := cs.takeWhile isDigit
  let rest := cs.dropWhile isDigit
  let (fraction, rest) :=
    match rest with
    | '.' :: rest => (rest.takeWhile isDigit, rest.dropWhile isDigit)
    | rest => ([], rest)
  match natural? 10 (whole ++ fraction), exponent? rest with
  | some m, some e => some (nearest negative m (e - fraction.length))
  | _, _ => none

/-- A decimal, an infinity or not-a-number in any case, after an optional sign. -/
def float? (cs : List Char) : Option Float :=
  match splitSign cs with
  | (negative, body) =>
    match body.map lower with
    | ['i', 'n', 'f'] | ['i', 'n', 'f', 'i', 'n', 'i', 't', 'y'] =>
      some (if negative then -1.0 / 0.0 else 1.0 / 0.0)
    | ['n', 'a', 'n'] => some (0.0 / 0.0)
    | _ => decimal? negative body

def fitsWord (n : Int) : Bool :=
  -Int.pow 2 63 ≤ n && n < Int.pow 2 63

theorem fitsWord_iff {n : Int} :
    fitsWord n = true ↔ -9223372036854775808 ≤ n ∧ n < 9223372036854775808 := by
  simp only [fitsWord, Bool.and_eq_true, decide_eq_true_eq]
  rfl

theorem fitsWord_toInt (n : Int64) : fitsWord n.toInt = true :=
  fitsWord_iff.2 ⟨n.le_toInt, n.toInt_lt⟩

theorem toInt_ofInt {n : Int} (hn : fitsWord n = true) : (Int64.ofInt n).toInt = n := by
  obtain ⟨hlo, hhi⟩ := fitsWord_iff.1 hn
  exact Int64.toInt_ofInt_of_le hlo hhi

def int64? (cs : List Char) : Option Int64 :=
  match integer? 10 cs with
  | some n => if fitsWord n then some (.ofInt n) else none
  | none => none

/-- A position: a number below `2 ^ 64`, written without a `-`. -/
def index? (cs : List Char) : Option Nat :=
  match unsigned? 10 cs with
  | some n => if n < Nat.pow 2 64 then some n else none
  | none => none

theorem digitValue?_ten (c : Char) :
    digitValue? 10 c = if isDigit c then some (c.toNat - '0'.toNat) else none := by
  rw [digitValue?]
  by_cases hc : isDigit c = true
  · have hle : c.toNat ≤ '9'.toNat := by
      simp only [isDigit, Bool.and_eq_true, decide_eq_true_eq] at hc
      exact hc.2
    have hlt : c.toNat - '0'.toNat < 10 := by
      have hzero : '0'.toNat = 48 := rfl
      have hnine : '9'.toNat = 57 := rfl
      omega
    simp only [hc, ↓reduceIte, if_pos hlt]
  · simp only [hc, Bool.false_eq_true, ↓reduceIte]
    -- a letter stands for ten or more
    rw [if_neg]
    split
    · omega
    · split <;> omega

theorem naturalFrom?_ten (acc : Nat) (cs : List Char) :
    naturalFrom? 10 acc cs =
      if cs.all isDigit then some (Nat.ofDigitChars 10 cs acc) else none := by
  induction cs generalizing acc with
  | nil => rfl
  | cons c cs ih =>
    rw [naturalFrom?, digitValue?_ten]
    by_cases hc : isDigit c = true
    · simp only [hc, ↓reduceIte, ih, List.all_cons, Bool.true_and, Nat.ofDigitChars_cons,
        Nat.mul_comm]
    · simp only [hc, Bool.false_eq_true, ↓reduceIte, List.all_cons, Bool.false_and]

theorem natural?_ten_eq_some_iff {cs : List Char} {n : Nat} :
    natural? 10 cs = some n ↔
      cs ≠ [] ∧ (∀ c ∈ cs, isDigit c = true) ∧ Nat.ofDigitChars 10 cs 0 = n := by
  cases cs with
  | nil => simp [natural?]
  | cons c cs => simp [natural?, naturalFrom?_ten]

end LiveDoc.Decimal
