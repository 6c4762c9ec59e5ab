import LiveDoc.Proofs.Doubles

namespace LiveDoc.Decimal

open Float.Model Float.Model.UnpackedFloat

/-- A mantissa of 53 digits, and an exponent that leaves the double finite. -/
structure IsNormal (m : Nat) (q : Int) : Prop where
  le : 2 ^ 52 ≤ m
  lt : m < 2 ^ 53
  least : leastExponent ≤ q
  most : q ≤ 971

theorem IsNormal.pos {m : Nat} {q : Int} (h : IsNormal m q) : 0 < m := by
  have hle := h.le
  omega

theorem mod_two_pow_succ (m k : Nat) : m % 2 ^ (k + 1) = m % 2 ^ k + 2 ^ k * (m / 2 ^ k % 2) := by
  rw [Nat.pow_succ, Nat.mod_mul]

/-- The digit that is shifted out last tells whether a half of the unit is lost. -/
theorem round_shiftRight_succ (m k : Nat) :
    (m / 2 ^ k % 2 != 0) = decide (2 ^ (k + 1) ≤ 2 * (m % 2 ^ (k + 1))) := by
  have hlt := Nat.mod_lt m (Nat.two_pow_pos k)
  rw [mod_two_pow_succ, Nat.pow_succ]
  rcases Nat.mod_two_eq_zero_or_one (m / 2 ^ k) with hbit | hbit
  · rw [hbit, eq_comm, Nat.mul_zero]
    exact decide_eq_false (by omega)
  · rw [hbit, eq_comm, Nat.mul_one]
    exact decide_eq_true (by omega)

/-- The other digits that are shifted out are remembered as one. -/
theorem sticky_shiftRight_succ (m k : Nat) :
    (decide (2 ^ k ≤ 2 * (m % 2 ^ k)) || decide (2 * (m % 2 ^ k) % 2 ^ k ≠ 0)) =
      decide (2 * (m % 2 ^ (k + 1)) % 2 ^ (k + 1) ≠ 0) := by
  rw [Nat.pow_succ', Nat.mul_mod_mul_left, Nat.mod_mod_of_dvd _ (Nat.dvd_mul_left ..),
    ← Bool.decide_or, decide_eq_decide]
  rcases Nat.eq_zero_or_pos (m % 2 ^ k) with hzero | hpos
  · simp [hzero]
  · refine iff_of_true ?_ (by omega)
    rcases Nat.lt_or_ge (2 * (m % 2 ^ k)) (2 ^ k) with hbelow | hreach
    · exact .inr (by rw [Nat.mod_eq_of_lt hbelow]; omega)
    · exact .inl hreach

/-- The two bits that are kept of what is shifted out tell how it compares with a half. -/
theorem shiftRight_exact (m k : Nat) : ExtendedMantissa.mk m false false >>> k =
    ⟨m / 2 ^ k, decide (2 ^ k ≤ 2 * (m % 2 ^ k)), decide (2 * (m % 2 ^ k) % 2 ^ k ≠ 0)⟩ := by
  induction k with
  | zero =>
    change ExtendedMantissa.mk m false false = _
    simp [Nat.mod_one]
  | succ k ih =>
    change ExtendedMantissa.shiftRightOne (ExtendedMantissa.mk m false false >>> k) = _
    have hquotient : m / 2 ^ k / 2 = m / 2 ^ (k + 1) := by
      rw [Nat.div_div_eq_div_mul, Nat.pow_succ]
    rw [ih, ExtendedMantissa.shiftRightOne, hquotient, round_shiftRight_succ, sticky_shiftRight_succ]

theorem roundedMantissa_shiftRight (m k : Nat) :
    (ExtendedMantissa.mk m false false >>> k).roundedMantissa = halfEven m (2 ^ k) := by
  have hlt := Nat.mod_lt m (Nat.two_pow_pos k)
  rw [shiftRight_exact, ExtendedMantissa.roundedMantissa, halfEven]
  rcases lt_trichotomy (2 * (m % 2 ^ k)) (2 ^ k) with hbelow | hhalf | habove
  · rw [decide_eq_false (by omega), if_pos (.inl hbelow)]
    cases decide (2 * (m % 2 ^ k) % 2 ^ k ≠ 0) <;> rfl
  · rw [hhalf, Nat.mod_self, decide_eq_true le_rfl]
    change m / 2 ^ k + m / 2 ^ k % 2 = _
    split <;> omega
  · have hsticky : 2 * (m % 2 ^ k) % 2 ^ k = 2 * (m % 2 ^ k) - 2 ^ k := by
      rw [Nat.mod_eq_sub_mod habove.le, Nat.mod_eq_of_lt (by omega)]
    rw [hsticky, decide_eq_true habove.le, decide_eq_true (by omega), if_neg (by omega)]
    rfl

theorem shiftToTargetExponent_eq {m k : Nat} {q : Int}
    (hk : (max (m.log2 + q - 52) leastExponent - q).toNat = k) :
    shiftToTargetExponent .binary64 m q .exact = (ExtendedMantissa.mk m false false >>> k, q + k) := by
  have hamount : (Format.binary64.targetExponent (totalExponent m q) - q).toNat = k := by
    rw [← hk, Format.targetExponent, totalExponent, Format.mantissaBits, Format.minExponent,
      Format.mantissaBits, leastExponent]
    norm_num
    omega
  rw [shiftToTargetExponent, shiftToExponent, hamount]
  rfl

section

variable {m k : Nat} {q : Int}

theorem ne_zero_of_log2 (hm : m.log2 = 52 + k) : m ≠ 0 := by
  rintro rfl
  rw [Nat.log2_zero] at hm
  omega

theorem halfEven_digits (hm : m.log2 = 52 + k) :
    2 ^ 52 ≤ halfEven m (2 ^ k) ∧ halfEven m (2 ^ k) ≤ 2 ^ 53 := by
  obtain ⟨hle, hlt⟩ := (Nat.log2_eq_iff (ne_zero_of_log2 hm)).1 hm
  have hle' : 2 ^ 52 ≤ m / 2 ^ k := by
    rwa [Nat.le_div_iff_mul_le (Nat.two_pow_pos k), ← Nat.pow_add]
  have hlt' : m / 2 ^ k < 2 ^ 53 := by
    rwa [Nat.div_lt_iff_lt_mul (Nat.two_pow_pos k), ← Nat.pow_add, Nat.add_right_comm 52 1]
  exact ⟨hle'.trans (le_halfEven m (2 ^ k)), (halfEven_le m (2 ^ k)).trans hlt'⟩

theorem shiftToTargetExponent_digits (hm : m.log2 = 52 + k) (hq : leastExponent ≤ q + k) :
    shiftToTargetExponent .binary64 m q .exact = (ExtendedMantissa.mk m false false >>> k, q + k) :=
  shiftToTargetExponent_eq (by rw [leastExponent] at *; omega)

theorem roundWithAccuracy_of_lt (s : Sign) (hm : m.log2 = 52 + k) (hq : leastExponent ≤ q + k)
    (hlt : halfEven m (2 ^ k) < 2 ^ 53) : ∃ hpos,
      roundWithAccuracy .binary64 s m q .exact = .finite s (halfEven m (2 ^ k)) (q + k) hpos := by
  have hle := (halfEven_digits hm).1
  have hlog : (halfEven m (2 ^ k)).log2 = 52 + 0 := (Nat.log2_eq_iff (by omega)).2 ⟨hle, hlt⟩
  have hmantissa : (ExtendedMantissa.mk (halfEven m (2 ^ k)) false false >>> 0).mantissa =
      halfEven m (2 ^ k) := rfl
  rw [roundWithAccuracy, shiftToTargetExponent_digits hm hq]
  dsimp only
  rw [roundedMantissa_shiftRight, shiftToTargetExponent_digits hlog (by omega)]
  refine ⟨by omega, (dif_neg (by rw [hmantissa]; omega)).trans ?_⟩
  exact Binary.finite_congr hmantissa (by omega) _ _

/-- A mantissa that is rounded up to the next power of two is shifted once more. -/
theorem roundWithAccuracy_of_carry (s : Sign) (hm : m.log2 = 52 + k) (hq : leastExponent ≤ q + k)
    (hcarry : halfEven m (2 ^ k) = 2 ^ 53) :
    roundWithAccuracy .binary64 s m q .exact = .finite s (2 ^ 52) (q + k + 1) (by decide) := by
  have hlog : (2 ^ 53).log2 = 52 + 1 := Nat.log2_two_pow
  have hq' : leastExponent ≤ q + k + (1 : Nat) := by omega
  rw [roundWithAccuracy, shiftToTargetExponent_digits hm hq]
  dsimp only
  rw [roundedMantissa_shiftRight, hcarry, shiftToTargetExponent_digits hlog hq']
  rfl

end

theorem log2_mul_two_pow {m : Nat} (hm : m ≠ 0) (k : Nat) : (m * 2 ^ k).log2 = m.log2 + k := by
  obtain ⟨hle, hlt⟩ := (Nat.log2_eq_iff hm).1 rfl
  refine (Nat.log2_eq_iff (Nat.mul_ne_zero hm (Nat.two_pow_pos k).ne')).2 ⟨?_, ?_⟩
  · rw [Nat.pow_add]
    exact Nat.mul_le_mul_right _ hle
  · rw [Nat.add_right_comm, Nat.pow_add]
    exact (Nat.mul_lt_mul_right (Nat.two_pow_pos k)).2 hlt

theorem roundWithAccuracy_mul_pow (s : Sign) {m k : Nat} {q : Int} (h : IsNormal m (q + k)) :
    roundWithAccuracy .binary64 s (m * 2 ^ k) q .exact = .finite s m (q + k) h.pos := by
  have hlog : (m * 2 ^ k).log2 = 52 + k := by
    rw [log2_mul_two_pow h.pos.ne', (Nat.log2_eq_iff h.pos.ne').2 ⟨h.le, h.lt⟩]
  have hexact : halfEven (m * 2 ^ k) (2 ^ k) = m := by
    have hcancel := halfEven_mul_right (Nat.two_pow_pos k) m 1
    rwa [Nat.one_mul, halfEven_one] at hcancel
  obtain ⟨hpos, hround⟩ := roundWithAccuracy_of_lt s hlog h.least (by rw [hexact]; exact h.lt)
  exact hround.trans (Binary.finite_congr hexact rfl _ _)

theorem ofBitVec_unpackSign_packComponents (s : Sign) (exponent : BitVec 11) (fraction : BitVec 52) :
    Sign.ofBitVec (unpackSign (packComponents .binary64 s exponent fraction)) = s := by
  rw [unpackSign, packComponents, BitVec.extractLsb, BitVec.extractLsb'_append_eq_of_le (by decide),
    BitVec.extractLsb'_append_eq_of_le (by decide)]
  cases s <;> rfl

section

variable {m : Nat} {q : Int} (h : IsNormal m q)

include h

theorem pack_of_isNormal (s : Sign) : UnpackedFloat.pack .binary64 (.finite s m q h.pos) =
    packComponents .binary64 s (BitVec.ofNat 11 (q + 1075).toNat) (BitVec.ofNat 52 m) := by
  have hlog : m.log2 + 1 = Format.binary64.mantissaBits := by
    rw [(Nat.log2_eq_iff h.pos.ne').2 ⟨h.le, h.lt⟩]
    rfl
  have hexponent : (q + (Format.binary64.exponentBias : Nat) + 52).toNat = (q + 1075).toNat := by
    change (q + 1023 + 52).toNat = _
    omega
  have hmost := h.most
  change (if 2 ^ 11 ≤ (q + (Format.binary64.exponentBias : Nat) + 52).toNat + 1 then _ else
    if m.log2 + 1 = Format.binary64.mantissaBits then packComponents .binary64 s
      (BitVec.ofNat 11 (q + (Format.binary64.exponentBias : Nat) + 52).toNat) (BitVec.ofNat 52 m)
    else _) = _
  rw [hexponent, if_neg (by omega), if_pos hlog]

theorem toNat_fraction : (BitVec.ofNat 52 m).toNat = m - 2 ^ 52 := by
  have hlt := h.lt
  rw [BitVec.toNat_ofNat, Nat.mod_eq_sub_mod h.le, Nat.mod_eq_of_lt (by omega)]

theorem exponent_bounds : 1 ≤ (q + 1075).toNat ∧ (q + 1075).toNat ≤ 2046 := by
  obtain ⟨-, -, hleast, hmost⟩ := h
  rw [leastExponent] at hleast
  omega

theorem toNat_exponent : (BitVec.ofNat 11 (q + 1075).toNat).toNat = (q + 1075).toNat := by
  have hbounds := exponent_bounds h
  rw [BitVec.toNat_ofNat, Nat.mod_eq_of_lt (by omega)]

theorem exponent_ne : BitVec.ofNat 11 (q + 1075).toNat ≠ -1#11 ∧
    BitVec.ofNat 11 (q + 1075).toNat ≠ 0#11 := by
  obtain ⟨hleast, hmost⟩ := exponent_bounds h
  rw [ne_eq, ne_eq, ← BitVec.toNat_inj, ← BitVec.toNat_inj, toNat_exponent h]
  constructor
  · change _ ≠ 2047
    omega
  · change _ ≠ 0
    omega

theorem unpack_pack (s : Sign) :
    (Float.Model.pack (.finite s m q h.pos)).unpack = .finite s m q h.pos := by
  change UnpackedFloat.unpack .binary64 (UnpackedFloat.pack .binary64 (.finite s m q h.pos)) = _
  rw [pack_of_isNormal h, UnpackedFloat.unpack]
  simp only [unpackMantissa_packComponents, unpackExponent_packComponents,
    ofBitVec_unpackSign_packComponents]
  rw [if_neg (exponent_ne h).1, if_neg (exponent_ne h).2]
  refine Binary.finite_congr ?_ ?_ _ _
  · rw [Binary.toNat_implicit_append, toNat_fraction h]
    exact Nat.add_sub_cancel' h.le
  · have hbounds := exponent_bounds h
    have hbias : ((Format.binary64.exponentBias : Nat) : Int) = 1023 := rfl
    rw [toNat_exponent h, hbias]
    omega

end

theorem isNormal_of_log2 {n j : Nat} (hn : 0 < n) (hj : n.log2 + j = 52) : IsNormal (n * 2 ^ j) (-j) := by
  have hne : n * 2 ^ j ≠ 0 := Nat.mul_ne_zero hn.ne' (Nat.two_pow_pos j).ne'
  obtain ⟨hle, hlt⟩ := (Nat.log2_eq_iff hne).1 (by rw [log2_mul_two_pow hn.ne', hj])
  exact ⟨hle, hlt, by rw [leastExponent]; omega, by omega⟩

/-- A normalized integer is rounded at the place of its last digit. -/
theorem normalize_natCast {n j : Nat} (hn : 0 < n) (hj : n.log2 + j = 52) :
    UnpackedFloat.normalize .binary64 n 0 .positive =
      roundWithAccuracy .binary64 .positive (n * 2 ^ j) (-j) .exact := by
  have htarget : Format.binary64.targetExponent (totalExponent n 0) = -j := by
    rw [Format.targetExponent, totalExponent, Format.mantissaBits, Format.minExponent,
      Format.mantissaBits]
    norm_num
    omega
  rw [UnpackedFloat.normalize, Int.compare_eq_gt.2 (by omega)]
  simp only [Int.toNat_natCast, UnpackedFloat.round, decreaseExponent, htarget]
  rw [Nat.shiftLeft_eq, Int.zero_sub, Int.neg_neg, Int.toNat_natCast, Int.zero_sub]

theorem unpack_toFloat {n j : Nat} (hn : 0 < n) (hj : n.log2 + j = 52) :
    n.toUInt64.toFloat.toModel.unpack =
      .finite .positive (n * 2 ^ j) (-j) (isNormal_of_log2 hn hj).pos := by
  have hnormal := isNormal_of_log2 hn hj
  have hword : n.toUInt64.toNat = n := by
    have hlt := (Nat.log2_lt hn.ne').1 (by omega : n.log2 < 53)
    exact Nat.mod_eq_of_lt (by omega)
  have hround : roundWithAccuracy .binary64 .positive (n * 2 ^ j) (-j) .exact =
      .finite .positive (n * 2 ^ j) (-j) hnormal.pos := by
    have hexact := roundWithAccuracy_mul_pow .positive (k := 0) (q := -j)
      (by simpa using isNormal_of_log2 hn hj)
    simpa using hexact
  change (Float.Model.pack (UnpackedFloat.normalize .binary64 n.toUInt64.toNat 0
    .positive)).unpack = _
  rw [hword, normalize_natCast hn hj, hround, unpack_pack hnormal]

theorem unpack_one : (Float.ofBits 0x3FF0000000000000).toModel.unpack =
    .finite .positive (2 ^ 52) (-52) (by decide) := by
  rfl

theorem unpack_ofNat_of_lt {n j : Nat} (hn : 0 < n) (hj : n.log2 + j = 52) :
    (Float.ofNat n).toModel.unpack =
      .finite .positive (n * 2 ^ j) (-j) (isNormal_of_log2 hn hj).pos := by
  have hnormal := isNormal_of_log2 hn hj
  have hlt : n < 2 ^ 53 := (Nat.log2_lt hn.ne').1 (by omega)
  have hproduct : Float.ofNat n = n.toUInt64.toFloat * Float.ofBits 0x3FF0000000000000 := by
    change Float.ofScientific n false 0 = _
    rw [Float.ofScientific, dif_pos ⟨hlt, by decide⟩]
    rfl
  have hround : roundWithAccuracy .binary64 .positive (n * 2 ^ j * 2 ^ 52) (-j + -52) .exact =
      .finite .positive (n * 2 ^ j) (-j) hnormal.pos := by
    have hexact := roundWithAccuracy_mul_pow .positive (k := 52) (q := -j + -52)
      (by simpa using isNormal_of_log2 hn hj)
    simpa using hexact
  rw [hproduct]
  change (Float.Model.pack (UnpackedFloat.mul .binary64 n.toUInt64.toFloat.toModel.unpack
    (Float.ofBits 0x3FF0000000000000).toModel.unpack)).unpack = _
  rw [unpack_toFloat hn hj, unpack_one]
  change (Float.Model.pack (roundWithAccuracy .binary64 .positive (n * 2 ^ j * 2 ^ 52) (-j + -52)
    .exact)).unpack = _
  rw [hround, unpack_pack hnormal]

theorem unpack_ofNat_of_ge {n : Nat} (hn : 2 ^ 53 ≤ n) : (Float.ofNat n).toModel.unpack =
    (Float.Model.pack (roundWithAccuracy .binary64 .positive (n * 2 ^ 53) (-53) .exact)).unpack := by
  have hne : n ≠ 0 := by omega
  have hproduct : Float.ofNat n = Float.ofModel (Float.Model.ofScientific n 0) := by
    change Float.ofScientific n false 0 = _
    rw [Float.ofScientific, dif_neg (fun h => hn.not_gt h.1)]
    rfl
  have hscientific : UnpackedFloat.ofScientific .binary64 n 0 =
      roundWithAccuracy .binary64 .positive (n * 2 ^ 53) (-53) .exact := by
    have hsmall : ¬(0 : Int) < -(2 ^ 11 + n.log2) := by omega
    rw [UnpackedFloat.ofScientific, dif_neg hne, if_neg (by decide), if_neg hsmall, if_pos le_rfl,
      ← Nat.mul_one (n * 2 ^ 53), ← Nat.shiftLeft_eq]
    rfl
  rw [hproduct]
  change (Float.Model.pack (UnpackedFloat.ofScientific .binary64 n 0)).unpack = _
  rw [hscientific]

/-- From `2 ^ 53` on, integers are rounded at the unit of the last of 53 digits. -/
theorem unpack_ofNat_rounded {n k : Nat} (hk : n.log2 = 53 + k) (hlt : k < 64) :
    ∃ m q, ∃ h : IsNormal m q, (Float.ofNat n).toModel.unpack = .finite .positive m q h.pos ∧
      (m * 2 ^ q : ℚ) = halfEven n (2 ^ (k + 1)) * 2 ^ (k + 1) := by
  have hne : n ≠ 0 := ne_zero_of_log2 (k := k + 1) (by omega)
  have hge : 2 ^ 53 ≤ n := by
    rw [← not_lt, ← Nat.log2_lt hne]
    omega
  have hlog : (n * 2 ^ 53).log2 = 52 + (k + 54) := by
    rw [log2_mul_two_pow hne, hk]
    omega
  have hcancel : halfEven (n * 2 ^ 53) (2 ^ (k + 54)) = halfEven n (2 ^ (k + 1)) := by
    rw [← halfEven_mul_right (Nat.two_pow_pos 53) n, ← Nat.pow_add]
  have hexponent : leastExponent ≤ -53 + (k + 54 : Nat) := by
    rw [leastExponent]
    omega
  obtain ⟨hle, hle'⟩ := halfEven_digits hlog
  rw [unpack_ofNat_of_ge hge, ← hcancel]
  rcases Nat.lt_or_eq_of_le hle' with hdigits | hcarry
  · have hnormal : IsNormal (halfEven (n * 2 ^ 53) (2 ^ (k + 54))) (-53 + (k + 54 : Nat)) :=
      ⟨hle, hdigits, hexponent, by omega⟩
    obtain ⟨_, hround⟩ := roundWithAccuracy_of_lt .positive hlog hexponent hdigits
    refine ⟨_, _, hnormal, by rw [hround, unpack_pack hnormal], ?_⟩
    rw [show (-53 + (k + 54 : Nat) : Int) = (k + 1 : Nat) by omega, zpow_natCast]
  · have hnormal : IsNormal (2 ^ 52) (-53 + (k + 54 : Nat) + 1) :=
      ⟨le_rfl, by decide, by omega, by omega⟩
    have hround := roundWithAccuracy_of_carry .positive hlog hexponent hcarry
    refine ⟨_, _, hnormal, by rw [hround, unpack_pack hnormal], ?_⟩
    rw [show (-53 + (k + 54 : Nat) + 1 : Int) = (k + 2 : Nat) by omega, zpow_natCast, hcarry]
    push_cast
    ring

theorem unpack_ofNat {n : Nat} (hn : 0 < n) (hlt : n < 2 ^ 64) :
    ∃ m q, ∃ h : IsNormal m q, (Float.ofNat n).toModel.unpack = .finite .positive m q h.pos ∧
      (m * 2 ^ q : ℚ) = rounded n := by
  rw [rounded_natCast, unit]
  by_cases hlog : n.log2 ≤ 52
  · obtain ⟨j, hj⟩ : ∃ j, n.log2 + j = 52 := ⟨52 - n.log2, by omega⟩
    refine ⟨n * 2 ^ j, -j, isNormal_of_log2 hn hj, unpack_ofNat_of_lt hn hj, ?_⟩
    rw [Nat.sub_eq_zero_of_le hlog, Nat.pow_zero, halfEven_one, Nat.mul_one, zpow_neg, zpow_natCast]
    push_cast
    exact mul_inv_cancel_right₀ (by positivity) _
  · obtain ⟨k, hk⟩ : ∃ k, n.log2 = 53 + k := ⟨n.log2 - 53, by omega⟩
    have hk' : k < 64 := by
      have hlog := (Nat.log2_lt hn.ne').2 hlt
      omega
    obtain ⟨m, q, hnormal, hunpack, hvalue⟩ := unpack_ofNat_rounded hk hk'
    refine ⟨m, q, hnormal, hunpack, ?_⟩
    rw [hvalue, show n.log2 - 52 = k + 1 by omega]
    push_cast
    rfl

theorem floatValue?_ofNat {n : Nat} (hn : n < 2 ^ 64) :
    floatValue? (Float.ofNat n) = some (.ofRat (rounded n)) := by
  rcases Nat.eq_zero_or_pos n with rfl | hpos
  · have hzero : Binary.ofFloat (Float.ofNat 0) = .finite false 0 leastExponent := by decide +kernel
    have hrounded : rounded (0 : Nat) = 0 := by decide
    rw [floatValue?, hzero, hrounded]
    simp [Binary.value?, signed]
  · obtain ⟨m, q, hnormal, hunpack, hvalue⟩ := unpack_ofNat hpos hn
    rw [floatValue?_eq, hunpack, ← hvalue]
    rfl

theorem floatValue?_ofInt {n : Int} (hn : n.natAbs < 2 ^ 64) :
    floatValue? (Float.ofInt n) = some (.ofRat (rounded n)) := by
  rcases n with n | n
  · exact floatValue?_ofNat hn
  · obtain ⟨m, q, hnormal, hunpack, hvalue⟩ := unpack_ofNat n.succ_pos hn
    have hneg : (Float.ofInt (Int.negSucc n)).toModel.unpack =
        .finite .negative m q hnormal.pos := by
      change (Float.Model.pack (Float.ofNat (n + 1)).toModel.unpack.neg).unpack = _
      rw [hunpack]
      exact unpack_pack hnormal .negative
    rw [floatValue?_eq, hneg, Int.negSucc_eq, ← Int.natCast_succ, rounded_neg, Int.cast_neg, ← hvalue]
    rfl

end LiveDoc.Decimal
