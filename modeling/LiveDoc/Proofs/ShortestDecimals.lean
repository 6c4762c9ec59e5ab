import LiveDoc.Decimal.Layout
import Mathlib

namespace LiveDoc.Decimal

def Digits.value (d : Digits) : ℚ := d.significand * 10 ^ d.exponent

theorem value_trim (significand : Nat) (exponent : Int) :
    (Digits.trim significand exponent).value = significand * 10 ^ exponent := by
  induction significand using Nat.strong_induction_on generalizing exponent with
  | _ n ih =>
    rw [Digits.trim]
    split
    next h =>
      have hdiv : (n : ℚ) = ((n / 10 : Nat) : ℚ) * 10 := by
        exact_mod_cast (Nat.div_mul_cancel (Nat.dvd_of_mod_eq_zero h.2)).symm
      rw [ih (n / 10) (Nat.div_lt_self (Nat.pos_of_ne_zero h.1) (by decide)), hdiv,
        zpow_add_one₀ (by norm_num)]
      ring
    next => rfl

namespace Ratio

def value (a : Ratio) : ℚ := a.num / a.den

theorem den_ofPower_pos (m : Nat) (k : Int) {base : Nat} (hb : 0 < base) :
    0 < (ofPower m base k).den := by
  rw [ofPower]
  split
  · exact Nat.pow_pos hb
  · exact Nat.one_pos

theorem cast_pow_toNat {base : Nat} {k : Int} (hk : 0 ≤ k) :
    ((Nat.pow base k.toNat : Nat) : ℚ) = (base : ℚ) ^ k := by
  rw [Nat.pow_eq, Nat.cast_pow, ← zpow_natCast, Int.toNat_of_nonneg hk]

theorem value_ofPower (m : Nat) (k : Int) (base : Nat) :
    (ofPower m base k).value = m * (base : ℚ) ^ k := by
  rw [ofPower, value]
  split
  next hk => rw [cast_pow_toNat (by omega), zpow_neg, div_inv_eq_mul]
  next hk => rw [Nat.cast_mul, cast_pow_toNat (by omega), Nat.cast_one, div_one]

theorem floorIn_eq (a : Ratio) (k : Int) : a.floorIn k = ⌊a.value / 10 ^ k⌋₊ := by
  rw [floorIn, value]
  split
  next hk =>
    have hscale : (a.num : ℚ) / a.den / 10 ^ k =
        ((a.num * Nat.pow 10 (-k).toNat : Nat) : ℚ) / a.den := by
      rw [Nat.cast_mul, cast_pow_toNat (by omega), Nat.cast_ofNat, zpow_neg, div_right_comm,
        ← div_eq_mul_inv]
    rw [hscale, Nat.floor_div_eq_div]
  next hk =>
    have hscale : (a.num : ℚ) / a.den / 10 ^ k =
        (a.num : ℚ) / ((a.den * Nat.pow 10 k.toNat : Nat) : ℚ) := by
      rw [Nat.cast_mul, cast_pow_toNat (by omega), Nat.cast_ofNat, div_div]
    rw [hscale, Nat.floor_div_eq_div]

theorem value_nonneg (a : Ratio) : 0 ≤ a.value := by
  rw [value]
  positivity

theorem floorIn_mul_le (a : Ratio) (k : Int) : (a.floorIn k : ℚ) * 10 ^ k ≤ a.value := by
  have hk : (0 : ℚ) < 10 ^ k := by positivity
  rw [← le_div_iff₀ hk, floorIn_eq]
  exact Nat.floor_le (div_nonneg a.value_nonneg hk.le)

theorem lt_floorIn_add_one_mul (a : Ratio) (k : Int) :
    a.value < ((a.floorIn k + 1 : Nat) : ℚ) * 10 ^ k := by
  have hk : (0 : ℚ) < 10 ^ k := by positivity
  rw [← div_lt_iff₀ hk, floorIn_eq, Nat.cast_add_one]
  exact Nat.lt_floor_add_one _

theorem pow_length_sub_one_le {n : Nat} (hn : 0 < n) :
    10 ^ ((Nat.toDigits 10 n).length - 1) ≤ n := by
  rcases Nat.eq_zero_or_pos ((Nat.toDigits 10 n).length - 1) with hzero | hpos
  · rw [hzero, Nat.pow_zero]
    exact hn
  · apply Nat.le_of_not_lt
    rw [← Nat.length_toDigits_le_iff (by decide) hpos]
    omega

theorem pow_point_sub_one_le {a : Ratio} (ha : 10 ^ (-324 : Int) ≤ a.value) :
    (10 : ℚ) ^ (a.point - 1) ≤ a.value := by
  have hpos : 0 < a.floorIn (-324) := by
    rw [floorIn_eq, Nat.floor_pos, le_div_iff₀ (by positivity), one_mul]
    exact ha
  have hlength : 0 < (Nat.toDigits 10 (a.floorIn (-324))).length := Nat.length_toDigits_pos
  have hsplit : a.point - 1 = ((Nat.toDigits 10 (a.floorIn (-324))).length - 1 : Nat) + -324 := by
    rw [point]
    omega
  rw [hsplit, zpow_add₀ (by norm_num), zpow_natCast]
  apply le_trans _ (a.floorIn_mul_le (-324))
  apply mul_le_mul_of_nonneg_right _ (by positivity)
  exact_mod_cast pow_length_sub_one_le hpos

theorem lt_iff {a b : Ratio} (ha : 0 < a.den) (hb : 0 < b.den) :
    a.lt b = true ↔ a.value < b.value := by
  rw [lt, decide_eq_true_eq, value, value,
    div_lt_div_iff₀ (by exact_mod_cast ha) (by exact_mod_cast hb)]
  norm_cast

theorem le_iff {a b : Ratio} (ha : 0 < a.den) (hb : 0 < b.den) :
    a.le b = true ↔ a.value ≤ b.value := by
  rw [le, decide_eq_true_eq, value, value,
    div_le_div_iff₀ (by exact_mod_cast ha) (by exact_mod_cast hb)]
  norm_cast

end Ratio

/-- What reads as the double of a rounding, by its value. -/
def Rounding.Within (r : Rounding) (x : ℚ) : Prop :=
  if r.closed = true then r.low.value ≤ x ∧ x ≤ r.high.value
  else r.low.value < x ∧ x < r.high.value

/-- Mantissa and exponent of a positive double, as they are in its bits. -/
structure IsPositive (m : Nat) (q : Int) : Prop where
  pos : 0 < m
  lt : m < 2 ^ 53
  least : leastExponent ≤ q
  normal : 2 ^ 52 ≤ m ∨ q = leastExponent

namespace Rounding

/-- How many quarters of a unit reach below a double: only half of the way that reaches above it, if
the doubles below are nearer to each other. -/
def below (m : Nat) (q : Int) : Nat :=
  if m = Nat.pow 2 52 ∧ q ≠ leastExponent then 1 else 2

section

variable {m : Nat} {q : Int} {r : Rounding} {tie : Tie} {k : Int}

theorem value_low (m : Nat) (q : Int) :
    (ofBinary m q).low.value = ((4 * m - below m q : Nat) : ℚ) * 2 ^ (q - 2) :=
  Ratio.value_ofPower ..

theorem value_high (m : Nat) (q : Int) :
    (ofBinary m q).high.value = ((4 * m + 2 : Nat) : ℚ) * 2 ^ (q - 2) :=
  Ratio.value_ofPower ..

theorem value_value (m : Nat) (q : Int) :
    (ofBinary m q).value.value = ((4 * m : Nat) : ℚ) * 2 ^ (q - 2) :=
  Ratio.value_ofPower ..

structure IsProper (r : Rounding) : Prop where
  low : 0 < r.low.den
  high : 0 < r.high.den

theorem isProper_ofBinary (m : Nat) (q : Int) : (ofBinary m q).IsProper :=
  ⟨Ratio.den_ofPower_pos _ _ (by decide), Ratio.den_ofPower_pos _ _ (by decide)⟩

theorem contains_iff (hr : r.IsProper) {a : Ratio} (ha : 0 < a.den) :
    r.contains a = true ↔ r.Within a.value := by
  rw [contains, Within]
  split
  · rw [Bool.and_eq_true, Ratio.le_iff hr.low ha, Ratio.le_iff ha hr.high]
  · rw [Bool.and_eq_true, Ratio.lt_iff hr.low ha, Ratio.lt_iff ha hr.high]

theorem within_of_onGrid (hr : r.IsProper) {n : Nat} (hn : r.onGrid tie k = some n) :
    r.Within (n * 10 ^ k) := by
  have hcontains : r.contains (.ofPower n 10 k) = true := by
    simp only [onGrid] at hn
    split at hn
    · cases hn
    next hdown hup =>
      cases hn
      exact hdown
    next hdown hup =>
      cases hn
      exact hup
    next hdown hup =>
      split at hn
      · cases hn
        exact hdown
      · split at hn
        · cases hn
          exact hup
        · split at hn
          · cases hn
            exact hdown
          · cases hn
            exact hup
  rw [contains_iff hr (Ratio.den_ofPower_pos n k (by decide)), Ratio.value_ofPower] at hcontains
  exact_mod_cast hcontains

theorem within_of_lt {x : ℚ} (hlow : r.low.value < x) (hhigh : x < r.high.value) : r.Within x := by
  rw [Within]
  split
  · exact ⟨hlow.le, hhigh.le⟩
  · exact ⟨hlow, hhigh⟩

/-- A grid that is finer than a rounding is wide has a point in it. -/
theorem isSome_onGrid (hr : r.IsProper) (hlow : r.low.value < r.value.value)
    (hhigh : r.value.value < r.high.value) (hwide : 10 ^ k < r.high.value - r.low.value)
    (tie : Tie) : (r.onGrid tie k).isSome = true := by
  have hdown := r.value.floorIn_mul_le k
  have hup := r.value.lt_floorIn_add_one_mul k
  have hnext : ((r.value.floorIn k + 1 : Nat) : ℚ) * 10 ^ k =
      r.value.floorIn k * 10 ^ k + 10 ^ k := by
    push_cast
    ring
  have hcontains : r.contains (.ofPower (r.value.floorIn k) 10 k) = true ∨
      r.contains (.ofPower (r.value.floorIn k + 1) 10 k) = true := by
    rw [contains_iff hr (Ratio.den_ofPower_pos _ k (by decide)), Ratio.value_ofPower,
      contains_iff hr (Ratio.den_ofPower_pos _ k (by decide)), Ratio.value_ofPower]
    rcases lt_or_ge r.low.value (r.value.floorIn k * 10 ^ k) with hlt | hge
    · exact .inl (within_of_lt hlt (lt_of_le_of_lt hdown hhigh))
    · exact .inr (within_of_lt (lt_trans hlow hup) (by push_cast at hnext ⊢; linarith))
  simp only [onGrid]
  split
  next hdownOut hupOut =>
    rw [hdownOut, hupOut] at hcontains
    exact absurd hcontains (by decide)
  · rfl
  · rfl
  · split
    · rfl
    · split
      · rfl
      · split <;> rfl

theorem below_le (m : Nat) (q : Int) : below m q ≤ 2 := by
  rw [below]
  split <;> decide

theorem below_pos (m : Nat) (q : Int) : 0 < below m q := by
  rw [below]
  split <;> decide

theorem ten_pow_le_two_pow : (10 : ℚ) ^ (-324 : Int) ≤ 2 ^ (-1074 : Int) := by
  have hpowers : 2 ^ 1074 ≤ 10 ^ 324 := by decide +kernel
  have hcast : ((2 ^ 1074 : Nat) : ℚ) ≤ ((10 ^ 324 : Nat) : ℚ) := Nat.cast_le.2 hpowers
  rw [Nat.cast_pow, Nat.cast_pow] at hcast
  exact inv_anti₀ (by positivity) hcast

theorem pow_le_value (h : IsPositive m q) :
    (10 : ℚ) ^ (-324 : Int) ≤ (ofBinary m q).value.value := by
  have hquarters : ((4 * m : Nat) : ℚ) * 2 ^ (q - 2) = m * 2 ^ q := by
    rw [zpow_sub₀ (by norm_num)]
    push_cast
    ring
  have hone : (1 : ℚ) ≤ m := by exact_mod_cast h.pos
  rw [value_value, hquarters]
  calc (10 : ℚ) ^ (-324 : Int) ≤ 2 ^ (-1074 : Int) := ten_pow_le_two_pow
    _ ≤ 2 ^ q := zpow_le_zpow_right₀ (by norm_num) h.least
    _ ≤ m * 2 ^ q := le_mul_of_one_le_left (by positivity) hone

theorem low_lt_value (h : IsPositive m q) :
    (ofBinary m q).low.value < (ofBinary m q).value.value := by
  have hbelow := below_pos m q
  have hm := h.pos
  rw [value_low, value_value]
  apply mul_lt_mul_of_pos_right _ (by positivity)
  exact_mod_cast (by omega : 4 * m - below m q < 4 * m)

theorem value_lt_high (m : Nat) (q : Int) :
    (ofBinary m q).value.value < (ofBinary m q).high.value := by
  rw [value_high, value_value]
  apply mul_lt_mul_of_pos_right _ (by positivity)
  exact_mod_cast Nat.lt_add_of_pos_right (by decide)

/-- Decimals of seventeen digits are nearer to each other than roundings are wide. -/
theorem pow_lt_width (h : IsPositive m q) :
    (10 : ℚ) ^ ((ofBinary m q).value.point - 17) <
      (ofBinary m q).high.value - (ofBinary m q).low.value := by
  have hpoint := Ratio.pow_point_sub_one_le (pow_le_value h)
  have hdigits : (10 : ℚ) ^ ((ofBinary m q).value.point - 17) * 10 ^ 16 =
      10 ^ ((ofBinary m q).value.point - 1) := by
    rw [← zpow_natCast, ← zpow_add₀ (by norm_num)]
    congr 1
    omega
  have hmantissa : 4 * m < 10 ^ 16 * (2 + below m q) := by
    have hm := h.lt
    rw [below, Nat.pow_eq]
    split
    · omega
    · omega
  have hle : below m q ≤ 4 * m := Nat.le_trans (below_le m q) (by have := h.pos; omega)
  have hunit : (0 : ℚ) < 2 ^ (q - 2) := by positivity
  rw [value_value] at hpoint
  rw [value_high, value_low, Nat.cast_sub hle]
  have hmantissa' : ((4 * m : Nat) : ℚ) < 10 ^ 16 * (2 + below m q) := by exact_mod_cast hmantissa
  push_cast at *
  nlinarith

/-- What is written of a double is on one of the grids, the last of which has seventeen digits. -/
theorem exists_shortest (h : IsPositive m q) (tie : Tie) :
    ∃ k n, (ofBinary m q).onGrid tie k = some n ∧
      (ofBinary m q).shortest tie = Digits.trim n k := by
  have hlast := isSome_onGrid (isProper_ofBinary m q) (low_lt_value h) (value_lt_high m q)
    (pow_lt_width h) tie
  rw [shortest]
  split
  next d hd =>
    obtain ⟨k, -, hk⟩ := List.exists_of_findSome?_eq_some hd
    obtain ⟨n, hn, rfl⟩ := Option.map_eq_some_iff.1 hk
    exact ⟨k, n, hn, rfl⟩
  next hnone =>
    rw [List.findSome?_eq_none_iff] at hnone
    have hsome := hnone ((ofBinary m q).value.point - 17)
      (List.mem_map.2 ⟨16, by decide, by norm_num⟩)
    rw [Option.map_eq_none_iff] at hsome
    rw [hsome] at hlast
    cases hlast

theorem within_shortest (h : IsPositive m q) (tie : Tie) :
    (ofBinary m q).Within ((ofBinary m q).shortest tie).value := by
  obtain ⟨k, n, hn, hshortest⟩ := exists_shortest h tie
  rw [hshortest, value_trim]
  exact within_of_onGrid (isProper_ofBinary m q) hn

end

section

variable {m m' : Nat} {q q' : Int} {x : ℚ}

def Before (m : Nat) (q : Int) (m' : Nat) (q' : Int) : Prop :=
  q < q' ∨ q = q' ∧ m < m'

/-- In units of the first of two doubles: its reals end where those of the second one begin at the
latest, and if they end there, then one of the mantissas is odd. -/
theorem high_le_low (h : IsPositive m q) (h' : IsPositive m' q') (hlt : Before m q m' q') :
    4 * m + 2 ≤ (4 * m' - below m' q') * 2 ^ (q' - q).toNat ∧
      (4 * m + 2 = (4 * m' - below m' q') * 2 ^ (q' - q).toNat → m % 2 = 1 ∨ m' % 2 = 1) := by
  rcases hlt with hq | ⟨rfl, hm⟩
  · have hnormal : 2 ^ 52 ≤ m' := by
      rcases h'.normal with hnormal | hleast
      · exact hnormal
      · have := h.least
        omega
    have hm := h.lt
    obtain ⟨d, hd⟩ : ∃ d, (q' - q).toNat = d + 1 := ⟨(q' - q).toNat - 1, by omega⟩
    have hpow : 1 ≤ 2 ^ d := Nat.one_le_two_pow
    have hscale : (4 * m' - below m' q') * 2 ≤ (4 * m' - below m' q') * 2 ^ (d + 1) :=
      Nat.mul_le_mul_left _ (by rw [Nat.pow_succ]; omega)
    have hreach : 2 ^ 52 < m' ∨ below m' q' = 1 := by
      rcases Nat.lt_or_eq_of_le hnormal with hlt | heq
      · exact .inl hlt
      · right
        rw [below, Nat.pow_eq, if_pos ⟨heq.symm, by have := h.least; omega⟩]
    have hle := below_le m' q'
    rw [hd]
    generalize (4 * m' - below m' q') * 2 ^ (d + 1) = reach at hscale ⊢
    omega
  · have hle := below_le m' q
    rw [Int.sub_self, Int.toNat_zero, Nat.pow_zero, Nat.mul_one]
    omega

theorem value_low_of_le (hq : q ≤ q') : (ofBinary m' q').low.value =
    (((4 * m' - below m' q') * 2 ^ (q' - q).toNat : Nat) : ℚ) * 2 ^ (q - 2) := by
  have hsplit : q' - 2 = (q' - q).toNat + (q - 2) := by omega
  rw [value_low, hsplit, zpow_add₀ (by norm_num), zpow_natCast, Nat.cast_mul, Nat.cast_pow,
    Nat.cast_ofNat, mul_assoc]

theorem not_within_of_before (h : IsPositive m q) (h' : IsPositive m' q')
    (hlt : Before m q m' q') (hx : (ofBinary m q).Within x) :
    ¬(ofBinary m' q').Within x := by
  intro hx'
  obtain ⟨hle, hodd⟩ := high_le_low h h' hlt
  have hq : q ≤ q' := by
    rcases hlt with hq | ⟨hq, -⟩
    · exact hq.le
    · exact hq.le
  have hunit : (0 : ℚ) < 2 ^ (q - 2) := by positivity
  have hends : (ofBinary m q).high.value ≤ (ofBinary m' q').low.value := by
    rw [value_high, value_low_of_le hq]
    exact mul_le_mul_of_nonneg_right (by exact_mod_cast hle) hunit.le
  rw [Within] at hx hx'
  split at hx
  next hclosed =>
    split at hx'
    next hclosed' =>
      have heq : (ofBinary m q).high.value = (ofBinary m' q').low.value :=
        le_antisymm hends (hx'.1.trans hx.2)
      rw [value_high, value_low_of_le hq, mul_left_inj' hunit.ne'] at heq
      have hparity := hodd (by exact_mod_cast heq)
      have heven : m % 2 = 0 := of_decide_eq_true hclosed
      have heven' : m' % 2 = 0 := of_decide_eq_true hclosed'
      omega
    next => linarith [hx.2, hx'.1]
  next =>
    split at hx'
    next => linarith [hx.2, hx'.1]
    next => linarith [hx.2, hx'.1]

/-- No real reads as two doubles. -/
theorem eq_of_within (h : IsPositive m q) (h' : IsPositive m' q')
    (hx : (ofBinary m q).Within x) (hx' : (ofBinary m' q').Within x) : m = m' ∧ q = q' := by
  rcases Int.lt_trichotomy q q' with hq | rfl | hq
  · exact absurd hx' (not_within_of_before h h' (.inl hq) hx)
  · rcases Nat.lt_trichotomy m m' with hm | rfl | hm
    · exact absurd hx' (not_within_of_before h h' (.inr ⟨rfl, hm⟩) hx)
    · exact ⟨rfl, rfl⟩
    · exact absurd hx (not_within_of_before h' h (.inr ⟨rfl, hm⟩) hx')
  · exact absurd hx (not_within_of_before h' h (.inl hq) hx')

end

end Rounding

theorem eq_of_value_shortest {m m' : Nat} {q q' : Int} (h : IsPositive m q)
    (h' : IsPositive m' q') {tie : Tie}
    (heq : (shortest tie m q).value = (shortest tie m' q').value) : m = m' ∧ q = q' := by
  rw [shortest, if_neg h.pos.ne', shortest, if_neg h'.pos.ne'] at heq
  have hx := Rounding.within_shortest h tie
  rw [heq] at hx
  exact Rounding.eq_of_within h h' hx (Rounding.within_shortest h' tie)

theorem value_shortest_pos {m : Nat} {q : Int} (h : IsPositive m q) (tie : Tie) :
    0 < (shortest tie m q).value := by
  have hlow : 0 < (Rounding.ofBinary m q).low.value := by
    have hle := Rounding.below_le m q
    have hm := h.pos
    rw [Rounding.value_low]
    apply mul_pos _ (by positivity)
    exact_mod_cast (by omega : 0 < 4 * m - Rounding.below m q)
  have hwithin := Rounding.within_shortest h tie
  rw [shortest, if_neg h.pos.ne']
  rw [Rounding.Within] at hwithin
  split at hwithin
  · exact hlow.trans_le hwithin.1
  · exact hlow.trans hwithin.1

def textValue (cs : List Char) : ℚ :=
  let fraction := (cs.dropWhile (· ≠ '.')).tail
  Nat.ofDigitChars 10 (cs.takeWhile (· ≠ '.') ++ fraction) 0 / 10 ^ fraction.length

theorem textValue_append {whole : List Char} (hw : ∀ c ∈ whole, c ≠ '.') (fraction : List Char) :
    textValue (whole ++ '.' :: fraction) =
      Nat.ofDigitChars 10 (whole ++ fraction) 0 / 10 ^ fraction.length := by
  have hall : ∀ c ∈ whole, decide (c ≠ '.') = true := fun c hc => decide_eq_true (hw c hc)
  simp only [textValue, List.takeWhile_append_of_pos hall, List.dropWhile_append_of_pos hall]
  simp

theorem textValue_whole {cs : List Char} (hcs : ∀ c ∈ cs, c ≠ '.') :
    textValue cs = Nat.ofDigitChars 10 cs 0 := by
  have hall : ∀ c ∈ cs, decide (c ≠ '.') = true := fun c hc => decide_eq_true (hcs c hc)
  simp only [textValue, List.takeWhile_eq_self_iff.2 hall, List.dropWhile_eq_nil_iff.2 hall]
  simp

theorem ne_point_of_mem_toDigits {n : Nat} {c : Char} (hc : c ∈ Nat.toDigits 10 n) : c ≠ '.' := by
  have hdigit := Nat.isDigit_of_mem_toDigits (by decide) (by decide) hc
  rintro rfl
  exact absurd hdigit (by decide)

theorem div_pow_eq_value {d : Digits} {n : Nat} (hn : d.exponent = -n) :
    (d.significand : ℚ) / 10 ^ n = d.value := by
  rw [Digits.value, hn, zpow_neg, zpow_natCast, div_eq_mul_inv]

theorem textValue_positional (d : Digits) : textValue (positional false d) = d.value := by
  have hlist : Nat.ofDigitChars 10 d.list 0 = d.significand := Nat.ofDigitChars_ten_toDigits
  have hdigits : ∀ c ∈ d.list, c ≠ '.' := fun c hc => ne_point_of_mem_toDigits hc
  simp only [positional]
  split
  next hexp =>
    have hcs : ∀ c ∈ d.list ++ List.replicate d.exponent.toNat '0', c ≠ '.' := by
      intro c hc
      rcases List.mem_append.1 hc with hc | hc
      · exact hdigits c hc
      · rw [List.eq_of_mem_replicate hc]
        decide
    rw [if_neg Bool.false_ne_true, List.append_nil, textValue_whole hcs, Nat.ofDigitChars_append,
      hlist, Nat.ofDigitChars_replicate_zero, Digits.value, ← Int.toNat_of_nonneg hexp,
      zpow_natCast, mul_comm]
    push_cast
    rfl
  next hexp =>
    split
    next hpoint =>
      rw [textValue_append fun c hc => hdigits c (List.mem_of_mem_take hc), List.take_append_drop,
        hlist, List.length_drop]
      apply div_pow_eq_value
      rw [Digits.point] at hpoint ⊢
      omega
    next hpoint =>
      change textValue (['0'] ++ '.' :: (List.replicate (-d.point).toNat '0' ++ d.list)) = _
      rw [textValue_append (by simp), List.singleton_append, Nat.ofDigitChars_cons,
        Nat.ofDigitChars_append, Nat.ofDigitChars_replicate_zero]
      simp only [Nat.sub_self, Nat.mul_zero, Nat.add_zero, hlist, List.length_append,
        List.length_replicate]
      apply div_pow_eq_value
      rw [Digits.point] at hpoint ⊢
      omega

end LiveDoc.Decimal
