import LiveDoc.Proofs.NumberTexts
import LiveDoc.Proofs.Rounding

namespace LiveDoc.Decimal

open Float.Model (UnpackedFloat)
open Float.Model.UnpackedFloat (Sign)

def signOf (negative : Bool) : Sign :=
  if negative then .negative else .positive

namespace Binary

def unpacked : Binary → UnpackedFloat
  | nan => .notANumber
  | infinite negative => .infinity (signOf negative)
  | finite negative m q =>
    if h : m = 0 then .zero (signOf negative)
    else .finite (signOf negative) m q (Nat.pos_of_ne_zero h)

section

variable (bits : UInt64)

theorem toNat_unpackMantissa :
    (@UnpackedFloat.unpackMantissa .binary64 bits.toBitVec).toNat = bits.toNat % 2 ^ 52 := by
  simp [UnpackedFloat.unpackMantissa, BitVec.extractLsb]

theorem toNat_unpackExponent :
    (@UnpackedFloat.unpackExponent .binary64 bits.toBitVec).toNat =
      bits.toNat / 2 ^ 52 % 2 ^ 11 := by
  simp [UnpackedFloat.unpackExponent, BitVec.extractLsb, Nat.shiftRight_eq_div_pow]

theorem ofBitVec_unpackSign :
    Sign.ofBitVec (@UnpackedFloat.unpackSign .binary64 bits.toBitVec) =
      signOf (decide (2 ^ 63 ≤ bits.toNat)) := by
  have hlt : bits.toNat < 2 ^ 64 := bits.toNat_lt
  have htoNat : (@UnpackedFloat.unpackSign .binary64 bits.toBitVec).toNat =
      bits.toNat / 2 ^ 63 := by
    simp [UnpackedFloat.unpackSign, BitVec.extractLsb, Nat.shiftRight_eq_div_pow]
    omega
  have hzero : @UnpackedFloat.unpackSign .binary64 bits.toBitVec = 0#1 ↔
      ¬2 ^ 63 ≤ bits.toNat := by
    rw [← BitVec.toNat_inj, htoNat, BitVec.toNat_zero]
    omega
  rw [Sign.ofBitVec, signOf]
  by_cases hsign : 2 ^ 63 ≤ bits.toNat
  · rw [if_neg (fun h => hzero.1 h hsign), if_pos (decide_eq_true hsign)]
  · rw [if_pos (hzero.2 hsign), if_neg (by simpa using hsign)]

theorem finite_congr {s : Sign} {m m' : Nat} {q q' : Int} (hm : m = m') (hq : q = q') (h : 0 < m)
    (h' : 0 < m') : UnpackedFloat.finite s m q h = .finite s m' q' h' := by
  subst hm hq
  rfl

theorem toNat_implicit_append {w : Nat} (fraction : BitVec w) :
    (1#1 ++ fraction).toNat = 2 ^ w + fraction.toNat := by
  rw [BitVec.toNat_append, ← Nat.shiftLeft_add_eq_or_of_lt fraction.isLt, Nat.shiftLeft_eq]
  simp

theorem unpack_eq : UnpackedFloat.unpack .binary64 bits.toBitVec = (ofBits bits).unpacked := by
  have hfraction : @UnpackedFloat.unpackMantissa .binary64 bits.toBitVec = 0#_ ↔
      bits.toNat % 2 ^ 52 = 0 := by
    rw [← BitVec.toNat_inj, toNat_unpackMantissa]
    rfl
  have hleast : @UnpackedFloat.unpackExponent .binary64 bits.toBitVec = 0#_ ↔
      bits.toNat / 2 ^ 52 % 2 ^ 11 = 0 := by
    rw [← BitVec.toNat_inj, toNat_unpackExponent]
    rfl
  have hgreatest : @UnpackedFloat.unpackExponent .binary64 bits.toBitVec = -1#_ ↔
      bits.toNat / 2 ^ 52 % 2 ^ 11 = 2047 := by
    rw [← BitVec.toNat_inj, toNat_unpackExponent]
    rfl
  rw [UnpackedFloat.unpack, ofBits, ofBitVec_unpackSign]
  simp only [Nat.pow_eq, hfraction, hleast, hgreatest]
  split
  next hexp =>
    rw [hexp]
    split <;> rfl
  next hmax =>
    split
    next hexp =>
      rw [hexp]
      change _ = unpacked (.finite _ _ _)
      rw [unpacked]
      split
      next hzero => rfl
      next hne =>
        exact finite_congr (toNat_unpackMantissa bits) (by rw [toNat_unpackExponent, hexp]; rfl) _ _
    next hne =>
      split
      next hexp => exact absurd hexp hne
      next hexp => exact absurd hexp hmax
      next e _ _ =>
        have hmantissa : ¬2 ^ 52 + bits.toNat % 2 ^ 52 = 0 := by omega
        rw [unpacked, dif_neg hmantissa]
        refine finite_congr ?_ ?_ _ _
        · rw [toNat_implicit_append, toNat_unpackMantissa]
        · have hbias : ((Float.Model.Format.binary64.exponentBias : Nat) : Int) = 1023 := rfl
          rw [toNat_unpackExponent, hbias, leastExponent]
          omega

end

end Binary

abbrev Extended := WithBot (WithTop ℚ)

def Extended.ofRat (x : ℚ) : Extended := ((x : WithTop ℚ) : WithBot (WithTop ℚ))

def signed (negative : Bool) (x : ℚ) : ℚ := if negative then -x else x

namespace Binary

/-- The exact value of a double, if it is a number. -/
def value? : Binary → Option Extended
  | nan => none
  | infinite negative => some (if negative then ⊥ else ⊤)
  | finite negative m q => some (.ofRat (signed negative (m * 2 ^ q)))

/-- A zero, or a mantissa and an exponent as they are in bits. -/
def IsCanonical : Binary → Prop
  | finite _ m q => m = 0 ∨ IsPositive m q
  | _ => True

theorem isCanonical_ofFloat (x : Float) : (ofFloat x).IsCanonical := by
  cases h : ofFloat x with
  | nan => trivial
  | infinite => trivial
  | finite negative m q =>
    rcases Nat.eq_zero_or_pos m with hm | hm
    · exact .inl hm
    · exact .inr (isPositive_of_ofFloat h hm)

end Binary

theorem ofRat_le_ofRat {x y : ℚ} : Extended.ofRat x ≤ .ofRat y ↔ x ≤ y :=
  WithBot.coe_le_coe.trans WithTop.coe_le_coe

theorem ofRat_inj {x y : ℚ} : Extended.ofRat x = .ofRat y ↔ x = y :=
  WithBot.coe_inj.trans WithTop.coe_inj

theorem cmp_ofRat (x y : ℚ) : cmp (Extended.ofRat x) (Extended.ofRat y) = cmp x y := by
  simp [cmp, cmpUsing, Extended.ofRat]

theorem bot_lt_ofRat (x : ℚ) : (⊥ : Extended) < .ofRat x := WithBot.bot_lt_coe _

theorem ofRat_lt_top (x : ℚ) : Extended.ofRat x < ⊤ :=
  WithBot.coe_lt_coe.2 (WithTop.coe_lt_top x)

theorem cmp_neg_neg (x y : ℚ) : cmp (-x) (-y) = cmp y x := by
  simp [cmp, cmpUsing]

section

variable {m m' : Nat} {q q' : Int}

theorem magnitude_pos (h : IsPositive m q) : (0 : ℚ) < m * 2 ^ q := by
  have hm : (0 : ℚ) < m := Nat.cast_pos.2 h.pos
  positivity

/-- A greater exponent outweighs all mantissas. -/
theorem magnitude_lt (h : IsPositive m q) (h' : IsPositive m' q') (hq : q < q') :
    (m * 2 ^ q : ℚ) < m' * 2 ^ q' := by
  have hm : (m : ℚ) < 2 ^ 53 := by exact_mod_cast h.lt
  have hm' : (2 : ℚ) ^ 52 ≤ m' := by
    have hleast := h.least
    exact_mod_cast h'.normal.resolve_right (by omega)
  calc
    (m * 2 ^ q : ℚ) < 2 ^ 53 * 2 ^ q := by gcongr
    _ = 2 ^ 52 * 2 ^ (q + 1) := by
      rw [zpow_add_one₀ (by norm_num)]
      ring
    _ ≤ 2 ^ 52 * 2 ^ q' := by
      gcongr
      · norm_num
      · omega
    _ ≤ m' * 2 ^ q' := by gcongr

theorem compare_magnitudes (h : IsPositive m q) (h' : IsPositive m' q') :
    (compare q q').then (compare m m') = cmp (m * 2 ^ q : ℚ) (m' * 2 ^ q') := by
  rcases lt_trichotomy q q' with hq | rfl | hq
  · rw [Int.compare_eq_lt.2 hq, (cmp_eq_lt_iff _ _).2 (magnitude_lt h h' hq)]
    rfl
  · rw [Int.compare_eq_eq.2 rfl, cmp_mul_pos_right (by positivity)]
    rcases lt_trichotomy m m' with hm | rfl | hm
    · rw [Nat.compare_eq_lt.2 hm, (cmp_eq_lt_iff _ _).2 (Nat.cast_lt.2 hm)]
      rfl
    · rw [Nat.compare_eq_eq.2 rfl, cmp_self_eq_eq]
      rfl
    · rw [Nat.compare_eq_gt.2 hm, (cmp_eq_gt_iff _ _).2 (Nat.cast_lt.2 hm)]
      rfl
  · rw [Int.compare_eq_gt.2 hq, (cmp_eq_gt_iff _ _).2 (magnitude_lt h' h hq)]
    rfl

end

namespace Binary

theorem compare_finite {negative negative' : Bool} {m m' : Nat} {q q' : Int}
    (h : (finite negative m q).IsCanonical) (h' : (finite negative' m' q').IsCanonical) :
    (finite negative m q).unpacked.compare (finite negative' m' q').unpacked =
      some (cmp (signed negative (m * 2 ^ q)) (signed negative' (m' * 2 ^ q'))) := by
  rw [unpacked, unpacked]
  rcases h with rfl | h
  · rcases h' with rfl | h'
    · cases negative <;> cases negative' <;> simp [signed, UnpackedFloat.compare]
    · have hpos := magnitude_pos h'
      have hlt := (cmp_eq_lt_iff 0 _).2 hpos
      have hgt := (cmp_eq_gt_iff 0 _).2 (neg_neg_of_pos hpos)
      cases negative <;> cases negative' <;>
        simp [signed, UnpackedFloat.compare, signOf, h'.pos.ne', hlt, hgt]
  · have hpos := magnitude_pos h
    rcases h' with rfl | h'
    · have hgt := (cmp_eq_gt_iff _ 0).2 hpos
      have hlt := (cmp_eq_lt_iff _ 0).2 (neg_neg_of_pos hpos)
      cases negative <;> cases negative' <;>
        simp [signed, UnpackedFloat.compare, signOf, h.pos.ne', hlt, hgt]
    · have hpos' := magnitude_pos h'
      have hlt := (cmp_eq_lt_iff _ _).2 ((neg_neg_of_pos hpos).trans hpos')
      have hgt := (cmp_eq_gt_iff _ _).2 ((neg_neg_of_pos hpos').trans hpos)
      cases negative <;> cases negative' <;>
        simp [signed, UnpackedFloat.compare, signOf, h.pos.ne', h'.pos.ne', hlt, hgt,
          compare_magnitudes h h', cmp_neg_neg, cmp_swap]

/-- Doubles stand in the order of their values. -/
theorem compare_unpacked {a b : Binary} (ha : a.IsCanonical) (hb : b.IsCanonical) :
    a.unpacked.compare b.unpacked = a.value?.bind fun x => b.value?.map (cmp x) := by
  cases a with
  | nan => cases b <;> rfl
  | infinite negative =>
    cases b with
    | nan => cases negative <;> rfl
    | infinite negative' => cases negative <;> cases negative' <;> rfl
    | finite negative' m q =>
      have hlt := (cmp_eq_lt_iff _ _).2 (bot_lt_ofRat (signed negative' (m * 2 ^ q)))
      have hgt := (cmp_eq_gt_iff _ _).2 (ofRat_lt_top (signed negative' (m * 2 ^ q)))
      rw [unpacked, unpacked]
      split <;> cases negative <;> simp [UnpackedFloat.compare, signOf, value?, hlt, hgt]
  | finite negative m q =>
    cases b with
    | nan =>
      rw [unpacked, unpacked]
      split <;> rfl
    | infinite negative' =>
      have hgt := (cmp_eq_gt_iff _ _).2 (bot_lt_ofRat (signed negative (m * 2 ^ q)))
      have hlt := (cmp_eq_lt_iff _ _).2 (ofRat_lt_top (signed negative (m * 2 ^ q)))
      rw [unpacked, unpacked]
      split <;> cases negative' <;> simp [UnpackedFloat.compare, signOf, value?, hlt, hgt]
    | finite negative' m' q' =>
      rw [compare_finite ha hb, ← cmp_ofRat]
      rfl

end Binary

def floatValue? (x : Float) : Option Extended := (Binary.ofFloat x).value?

theorem compare_floats (x y : Float) : x.toModel.unpack.compare y.toModel.unpack =
    (floatValue? x).bind fun v => (floatValue? y).map (cmp v) := by
  rw [Float.Model.unpack, Float.Model.unpack, Binary.unpack_eq, Binary.unpack_eq]
  exact Binary.compare_unpacked (Binary.isCanonical_ofFloat x) (Binary.isCanonical_ofFloat y)

section

variable {x y : Float} {v w : Extended}

theorem compare_floats_eq (hx : floatValue? x = some v) (hy : floatValue? y = some w) :
    x.toModel.unpack.compare y.toModel.unpack = some (cmp v w) := by
  rw [compare_floats, hx, hy]
  rfl

theorem float_lt_iff (hx : floatValue? x = some v) (hy : floatValue? y = some w) :
    x < y ↔ v < w := by
  change decide (x.toModel.unpack.lt y.toModel.unpack = true) = true ↔ _
  rw [decide_eq_true_eq, UnpackedFloat.lt, beq_iff_eq, compare_floats_eq hx hy, Option.some.injEq,
    cmp_eq_lt_iff]

theorem float_beq_iff (hx : floatValue? x = some v) (hy : floatValue? y = some w) :
    (x == y) = true ↔ v = w := by
  change x.toModel.unpack.beq y.toModel.unpack = true ↔ _
  rw [UnpackedFloat.beq, beq_iff_eq, compare_floats_eq hx hy, Option.some.injEq, cmp_eq_eq_iff]

end

theorem isNaN_unpacked (b : Binary) : b.unpacked.isNaN = b.value?.isNone := by
  cases b with
  | nan => rfl
  | infinite => rfl
  | finite =>
    rw [Binary.unpacked]
    split <;> rfl

theorem isNaN_eq (x : Float) : x.isNaN = (floatValue? x).isNone := by
  change (UnpackedFloat.unpack .binary64 x.toBits.toBitVec).isNaN = _
  rw [Binary.unpack_eq, isNaN_unpacked]
  rfl

def unpackedValue? : UnpackedFloat → Option Extended
  | .notANumber => none
  | .infinity .positive => some ⊤
  | .infinity .negative => some ⊥
  | .zero _ => some (.ofRat 0)
  | .finite .positive m q _ => some (.ofRat (m * 2 ^ q))
  | .finite .negative m q _ => some (.ofRat (-(m * 2 ^ q)))

theorem floatValue?_eq (x : Float) : floatValue? x = unpackedValue? x.toModel.unpack := by
  change _ = unpackedValue? (UnpackedFloat.unpack .binary64 x.toBits.toBitVec)
  rw [Binary.unpack_eq, floatValue?]
  change _ = unpackedValue? (Binary.ofFloat x).unpacked
  cases Binary.ofFloat x with
  | nan => rfl
  | infinite negative => cases negative <;> rfl
  | finite negative m q =>
    rw [Binary.unpacked]
    split
    next hm => cases negative <;> simp [hm, Binary.value?, signed, unpackedValue?]
    next hm => cases negative <;> rfl

theorem IsDouble.signed {x : ℚ} (h : IsDouble x) (negative : Bool) : IsDouble (signed negative x) := by
  cases negative with
  | false => exact h
  | true => exact h.neg

theorem isDouble_of_floatValue? {x : Float} {r : ℚ} (h : floatValue? x = some (.ofRat r)) :
    IsDouble r := by
  have hcanonical := Binary.isCanonical_ofFloat x
  rw [floatValue?] at h
  cases hbinary : Binary.ofFloat x with
  | nan =>
    rw [hbinary] at h
    cases h
  | infinite negative =>
    rw [hbinary] at h
    cases negative with
    | false => exact absurd (Option.some.inj h).symm (ofRat_lt_top r).ne
    | true => exact absurd (Option.some.inj h) (bot_lt_ofRat r).ne
  | finite negative m q =>
    rw [hbinary] at h hcanonical
    have hr : Decimal.signed negative (m * 2 ^ q) = r := ofRat_inj.1 (Option.some.inj h)
    rw [← hr]
    refine IsDouble.signed ⟨m, q, ?_, by push_cast; rfl⟩ negative
    rcases hcanonical with rfl | hpositive
    · decide
    · have hlt := hpositive.lt
      rw [abs_of_nonneg (Int.natCast_nonneg m)]
      omega

end LiveDoc.Decimal
