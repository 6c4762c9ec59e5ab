import Mathlib

namespace LiveDoc.Decimal

/-- `m / d` as the nearest integer, of two the even one. -/
def halfEven (m d : Nat) : Nat :=
  if 2 * (m % d) < d ∨ 2 * (m % d) = d ∧ m / d % 2 = 0 then m / d else m / d + 1

def unit (m : Nat) : Nat := 2 ^ (m.log2 - 52)

/-- The nearest integer of 53 binary digits, of two the one with an even mantissa. -/
def rounded (n : Int) : Int :=
  n.sign * (halfEven n.natAbs (unit n.natAbs) * unit n.natAbs : Nat)

/-- A mantissa of 53 binary digits times a power of two. -/
def IsDouble (x : ℚ) : Prop :=
  ∃ z q : Int, |z| ≤ 2 ^ 53 ∧ x = z * 2 ^ q

theorem unit_pos (m : Nat) : 0 < unit m := Nat.two_pow_pos _

theorem halfEven_one (m : Nat) : halfEven m 1 = m := by
  rw [halfEven, Nat.mod_one, Nat.div_one, if_pos (.inl (by decide))]

theorem halfEven_mul_right {c : Nat} (hc : 0 < c) (m d : Nat) :
    halfEven (m * c) (d * c) = halfEven m d := by
  simp only [halfEven, Nat.mul_mod_mul_right, Nat.mul_div_mul_right _ _ hc, ← Nat.mul_assoc,
    Nat.mul_lt_mul_right hc, Nat.mul_left_inj hc.ne']

theorem halfEven_le (m d : Nat) : halfEven m d ≤ m / d + 1 := by
  rw [halfEven]
  split <;> omega

theorem le_halfEven (m d : Nat) : m / d ≤ halfEven m d := by
  rw [halfEven]
  split <;> omega

theorem halfEven_mul_near {d : Nat} (hd : 0 < d) (m : Nat) :
    2 * (halfEven m d * d) ≤ 2 * m + d ∧ 2 * m ≤ 2 * (halfEven m d * d) + d := by
  have hdiv := Nat.div_add_mod' m d
  have hmod := Nat.mod_lt m hd
  rw [halfEven]
  split
  next h => omega
  next h =>
    have hhalf : d ≤ 2 * (m % d) := by omega
    rw [Nat.add_one_mul (m / d)]
    omega

/-- No other multiple of the divisor is nearer. -/
theorem abs_halfEven_sub_le {d : Nat} (hd : 0 < d) (m : Nat) (z : Int) :
    |((halfEven m d * d : Nat) : Int) - m| ≤ |z * d - m| := by
  obtain ⟨hle, hge⟩ := halfEven_mul_near hd m
  rcases lt_trichotomy z (halfEven m d) with hlt | rfl | hgt
  · have happart := mul_le_mul_of_nonneg_right (Int.add_one_le_of_lt hlt) (Int.natCast_nonneg d)
    rw [add_one_mul, ← Int.natCast_mul] at happart
    exact (abs_le.2 ⟨by omega, by omega⟩).trans (neg_le_abs (z * d - m))
  · rw [Int.natCast_mul]
  · have happart := mul_le_mul_of_nonneg_right (Int.add_one_le_of_lt hgt) (Int.natCast_nonneg d)
    rw [add_one_mul, ← Int.natCast_mul] at happart
    exact (abs_le.2 ⟨by omega, by omega⟩).trans (le_abs_self (z * d - m))

theorem IsDouble.neg {x : ℚ} (h : IsDouble x) : IsDouble (-x) := by
  obtain ⟨z, q, hz, rfl⟩ := h
  exact ⟨-z, q, by rwa [abs_neg], by push_cast; ring⟩

/-- A double is a multiple of the unit of an integer, or it is not above the least integer that has
this unit. -/
theorem IsDouble.multiple_or_le {x : ℚ} (h : IsDouble x) {m k : Nat} (hm : m.log2 = 52 + (k + 1)) :
    (∃ z : Int, x = z * unit m) ∨ 2 ^ 52 * unit m ≤ m ∧ x ≤ 2 ^ 52 * unit m := by
  obtain ⟨z, q, hz, rfl⟩ := h
  have hunit : unit m = 2 ^ (k + 1) := by rw [unit, hm, Nat.add_sub_cancel_left]
  rw [hunit]
  by_cases hq : (k + 1 : Int) ≤ q
  · left
    have hsplit : q = ((q - (k + 1)).toNat : Int) + ((k + 1 : Nat) : Int) := by omega
    refine ⟨z * 2 ^ (q - (k + 1)).toNat, ?_⟩
    conv_lhs => rw [hsplit, zpow_add₀ (by norm_num), zpow_natCast, zpow_natCast]
    push_cast
    ring
  · right
    have hlog : 2 ^ (52 + (k + 1)) ≤ m := by
      rw [← hm]
      exact Nat.log2_self_le (by rintro rfl; simp at hm)
    have hz' : (z : ℚ) ≤ 2 ^ 53 := by exact_mod_cast (le_abs_self z).trans hz
    have hpow : (2 : ℚ) ^ q ≤ 2 ^ (k : Int) := zpow_le_zpow_right₀ (by norm_num) (by omega)
    refine ⟨by rwa [← Nat.pow_add], ?_⟩
    calc
      (z : ℚ) * 2 ^ q ≤ 2 ^ 53 * 2 ^ (k : Int) := mul_le_mul hz' hpow (by positivity) (by positivity)
      _ = 2 ^ 52 * (2 ^ (k + 1) : Nat) := by
        rw [zpow_natCast]
        push_cast
        ring

theorem abs_roundedNat_sub_le (m : Nat) {x : ℚ} (hx : IsDouble x) :
    |((halfEven m (unit m) * unit m : Nat) : ℚ) - m| ≤ |x - m| := by
  by_cases hm : m.log2 ≤ 52
  · have hunit : unit m = 1 := by rw [unit, Nat.sub_eq_zero_of_le hm, Nat.pow_zero]
    rw [hunit, halfEven_one, Nat.mul_one, sub_self, abs_zero]
    exact abs_nonneg _
  · have hmultiple (z : Int) :
        |((halfEven m (unit m) * unit m : Nat) : ℚ) - m| ≤ |(z : ℚ) * unit m - m| := by
      have hle := (Int.cast_le (R := ℚ)).2 (abs_halfEven_sub_le (unit_pos m) m z)
      simpa using hle
    obtain ⟨k, hk⟩ : ∃ k, m.log2 = 52 + (k + 1) := ⟨m.log2 - 53, by omega⟩
    rcases hx.multiple_or_le hk with ⟨z, rfl⟩ | ⟨hleast, hx⟩
    · exact hmultiple z
    · have hleast' : (2 : ℚ) ^ 52 * unit m ≤ m := by exact_mod_cast hleast
      have hnear := hmultiple (2 ^ 52)
      rw [abs_sub_comm ((2 ^ 52 : Int) * unit m : ℚ), Int.cast_pow, Int.cast_ofNat,
        abs_of_nonneg (by linarith : (0 : ℚ) ≤ m - 2 ^ 52 * unit m)] at hnear
      rw [abs_sub_comm x, abs_of_nonneg (by linarith : 0 ≤ m - x)]
      linarith

theorem rounded_neg (n : Int) : rounded (-n) = -rounded n := by
  rw [rounded, rounded, Int.natAbs_neg, Int.sign_neg, neg_mul]

theorem rounded_natCast (m : Nat) : rounded m = (halfEven m (unit m) * unit m : Nat) := by
  rw [rounded, Int.natAbs_natCast]
  rcases Nat.eq_zero_or_pos m with rfl | hm
  · decide
  · rw [Int.sign_natCast_of_ne_zero hm.ne', one_mul]

/-- No double is nearer to the integer. -/
theorem abs_rounded_sub_le (n : Int) {x : ℚ} (hx : IsDouble x) :
    |(rounded n : ℚ) - n| ≤ |x - n| := by
  obtain ⟨m, rfl | rfl⟩ := n.eq_nat_or_neg
  · rw [rounded_natCast]
    exact_mod_cast abs_roundedNat_sub_le m hx
  · have hneg := abs_roundedNat_sub_le m hx.neg
    rw [rounded_neg, rounded_natCast, Int.cast_neg, Int.cast_neg, Int.cast_natCast, Int.cast_natCast,
      neg_sub_neg, abs_sub_comm, sub_neg_eq_add]
    rwa [← neg_add', abs_neg] at hneg

theorem div_unit_lt (m : Nat) : m / unit m < 2 ^ 53 := by
  rw [Nat.div_lt_iff_lt_mul (unit_pos m), unit, ← Nat.pow_add]
  exact Nat.lt_log2_self.trans_le (Nat.pow_le_pow_right (by decide) (by omega))

theorem isDouble_rounded (n : Int) : IsDouble (rounded n) := by
  have hdouble (m : Nat) : IsDouble (rounded m) := by
    refine ⟨halfEven m (unit m), (m.log2 - 52 : Nat), ?_, ?_⟩
    · have hle := halfEven_le m (unit m)
      have hlt := div_unit_lt m
      rw [abs_of_nonneg (Int.natCast_nonneg _)]
      omega
    · rw [rounded_natCast, zpow_natCast]
      push_cast [unit]
      rfl
  obtain ⟨m, rfl | rfl⟩ := n.eq_nat_or_neg
  · exact hdouble m
  · rw [rounded_neg, Int.cast_neg]
    exact (hdouble m).neg

theorem rounded_eq_self {n : Int} (h : IsDouble n) : rounded n = n := by
  have hnear := abs_rounded_sub_le n h
  rw [sub_self, abs_zero, abs_nonpos_iff, sub_eq_zero] at hnear
  exact_mod_cast hnear

/-- An integer does not pass by a double. -/
theorem rounded_le {n : Int} {x : ℚ} (hx : IsDouble x) (h : n ≤ x) : rounded n ≤ x := by
  have hnear := abs_rounded_sub_le n hx
  by_contra hlt
  rw [abs_of_nonneg (sub_nonneg.2 h), abs_of_nonneg (by linarith)] at hnear
  linarith

theorem le_rounded {n : Int} {x : ℚ} (hx : IsDouble x) (h : x ≤ n) : x ≤ rounded n := by
  have hneg : (rounded (-n) : ℚ) ≤ -x := rounded_le hx.neg (by push_cast; linarith)
  rw [rounded_neg, Int.cast_neg] at hneg
  linarith

theorem rounded_mono {m n : Int} (h : m ≤ n) : rounded m ≤ rounded n := by
  have h' : (m : ℚ) ≤ n := Int.cast_le.2 h
  suffices (rounded m : ℚ) ≤ rounded n from Int.cast_le.1 this
  by_cases hm : (m : ℚ) ≤ rounded n
  · exact rounded_le (isDouble_rounded n) hm
  by_cases hn : (rounded m : ℚ) ≤ n
  · exact le_rounded (isDouble_rounded m) hn
  -- each of the two has the other one's double on its far side, so they are one integer
  have hnear := abs_rounded_sub_le m (isDouble_rounded n)
  have hnear' := abs_rounded_sub_le n (isDouble_rounded m)
  rw [abs_of_nonneg (by linarith), abs_of_nonpos (by linarith)] at hnear
  rw [abs_of_nonpos (by linarith), abs_of_nonneg (by linarith)] at hnear'
  obtain rfl : m = n := le_antisymm h (Int.cast_le.1 (by linarith : (n : ℚ) ≤ m))
  exact le_rfl

end LiveDoc.Decimal
