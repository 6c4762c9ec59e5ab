import LiveDoc.Number.Basic
import Mathlib

namespace LiveDoc.Number

open Decimal

def truncated (x : ℚ) : Int :=
  if 0 ≤ x then ⌊x⌋ else ⌈x⌉

inductive Operation where
  | add
  | sub
  | mul
  | div
  | rem

namespace Operation

def apply : Operation → Number → Number → Number
  | add => Number.add
  | sub => Number.sub
  | mul => Number.mul
  | div => Number.div
  | rem => Number.rem

/-- The result on integers as a rational number; none for a division by zero. -/
def result? : Operation → Int → Int → Option ℚ
  | add, a, b => some (a + b)
  | sub, a, b => some (a - b)
  | mul, a, b => some (a * b)
  | div, a, b => if b = 0 then none else some (a / b)
  | rem, a, b => if b = 0 then none else some (a - b * truncated (a / b))

/-- The remainder whose quotient is the only one of two integers that does not fit. -/
def IsLeastByMinusOne (op : Operation) (a b : Int64) : Prop :=
  op = rem ∧ a = Int64.minValue ∧ b = -1

end Operation

section

variable {a b : Int}

theorem tmod_nonpos (ha : a ≤ 0) : a.tmod b ≤ 0 := by
  have hneg := Int.tmod_nonneg b (Int.neg_nonneg.2 ha)
  rw [Int.neg_tmod] at hneg
  omega

theorem abs_tmod_lt (hb : b ≠ 0) : |a.tmod b| < |b| := by
  rw [Int.abs_eq_natAbs, Int.abs_eq_natAbs, Int.natAbs_tmod]
  exact_mod_cast Nat.mod_lt _ (Int.natAbs_pos.2 hb)

/-- The remainder counts for less than one, to the same side as the quotient. -/
theorem truncated_div (hb : b ≠ 0) : truncated (a / b) = a.tdiv b := by
  have hne : (b : ℚ) ≠ 0 := by exact_mod_cast hb
  have hsplit : (a : ℚ) / b = a.tdiv b + a.tmod b / b := by
    have hcast : (b : ℚ) * a.tdiv b + a.tmod b = a := by exact_mod_cast Int.mul_tdiv_add_tmod a b
    rw [← hcast]
    field_simp
  have hlt : |(a.tmod b : ℚ) / b| < 1 := by
    rw [abs_div, div_lt_one (abs_pos.2 hne)]
    exact_mod_cast abs_tmod_lt hb
  obtain ⟨hlo, hhi⟩ := abs_lt.1 hlt
  rw [truncated]
  split
  next h =>
    have hnonneg : (0 : ℚ) ≤ a.tmod b / b := by
      rcases div_nonneg_iff.1 h with ⟨ha, hb⟩ | ⟨ha, hb⟩
      · exact div_nonneg (by exact_mod_cast Int.tmod_nonneg b (by exact_mod_cast ha)) hb
      · exact div_nonneg_of_nonpos (by exact_mod_cast tmod_nonpos (by exact_mod_cast ha)) hb
    rw [hsplit, Int.floor_intCast_add, Int.floor_eq_zero_iff.2 ⟨hnonneg, hhi⟩, Int.add_zero]
  next h =>
    have hnonpos : (a.tmod b : ℚ) / b ≤ 0 := by
      rcases div_neg_iff.1 (not_le.1 h) with ⟨ha, hb⟩ | ⟨ha, hb⟩
      · exact div_nonpos_of_nonneg_of_nonpos
          (by exact_mod_cast Int.tmod_nonneg b (by exact_mod_cast ha.le)) hb.le
      · exact div_nonpos_of_nonpos_of_nonneg
          (by exact_mod_cast tmod_nonpos (by exact_mod_cast ha.le)) hb.le
    rw [hsplit, Int.ceil_intCast_add, Int.ceil_eq_zero_iff.2 ⟨hlo, hnonpos⟩, Int.add_zero]

theorem tmod_eq_sub_truncated (hb : b ≠ 0) :
    (a.tmod b : ℚ) = a - b * truncated (a / b) := by
  rw [truncated_div hb]
  exact_mod_cast Int.tmod_def a b

theorem div_eq_intCast_iff (hb : b ≠ 0) {r : Int} :
    (a : ℚ) / b = r ↔ a.tmod b = 0 ∧ a.tdiv b = r := by
  have hne : (b : ℚ) ≠ 0 := by exact_mod_cast hb
  have hsplit := Int.mul_tdiv_add_tmod a b
  rw [div_eq_iff hne]
  constructor
  · intro h
    have ha : a = r * b := by exact_mod_cast h
    rw [ha]
    exact ⟨Int.mul_tmod_left r b, Int.mul_tdiv_cancel r hb⟩
  · rintro ⟨hzero, rfl⟩
    rw [hzero, Int.add_zero, Int.mul_comm] at hsplit
    exact_mod_cast hsplit.symm

end

/-- All quotients fit but that of the least integer by minus one. -/
theorem fitsWord_tdiv_iff {a b : Int64} (hb : b.toInt ≠ 0) :
    fitsWord (a.toInt.tdiv b.toInt) = true ↔ ¬(a = Int64.minValue ∧ b = -1) := by
  have hlo := a.le_toInt
  have hhi := a.toInt_lt
  have habs := Int.natAbs_tdiv_le_natAbs a.toInt b.toInt
  constructor
  · rintro hfits ⟨rfl, rfl⟩
    exact absurd hfits (by decide)
  · intro hne
    have hlt : a.toInt.tdiv b.toInt < 2 ^ 63 := by
      by_contra hge
      have ha : a.toInt = -2 ^ 63 := by omega
      have hunit : b.toInt.natAbs < 2 := by
        by_contra htwo
        have hhalf : a.toInt.natAbs / b.toInt.natAbs ≤ a.toInt.natAbs / 2 :=
          Nat.div_le_div_left (by omega) (by decide)
        have hquotient : (a.toInt.tdiv b.toInt).natAbs = a.toInt.natAbs / b.toInt.natAbs :=
          Int.natAbs_tdiv _ _
        omega
      rcases (by omega : b.toInt = 1 ∨ b.toInt = -1) with hone | hminus
      · rw [hone, Int.tdiv_one] at hge
        omega
      · exact hne ⟨Int64.toInt_inj.1 ha, Int64.toInt_inj.1 hminus⟩
    exact fitsWord_iff.2 ⟨by omega, hlt⟩

theorem ofInt_eq_iff {n : Int} (hn : fitsWord n = true) {r : Int64} :
    int (.ofInt n) = int r ↔ n = r.toInt := by
  rw [int.injEq, ← Int64.toInt_inj, toInt_ofInt hn]

theorem exactOr_eq_int_iff {n : Int} {x : Float} {r : Int64} :
    exactOr n x = int r ↔ n = r.toInt := by
  rw [exactOr]
  split
  next hfits => exact ofInt_eq_iff hfits
  next hfits =>
    refine ⟨nofun, fun heq => ?_⟩
    rw [heq] at hfits
    exact absurd (fitsWord_toInt r) hfits

theorem exactOr_cases (n : Int) (x : Float) :
    (∃ r, exactOr n x = int r) ∨ exactOr n x = float x := by
  rw [exactOr]
  split
  · exact .inl ⟨_, rfl⟩
  · exact .inr rfl

namespace Operation

variable {a b r : Int64}

theorem div_eq_int_iff : div.apply (int a) (int b) = int r ↔
    div.result? a.toInt b.toInt = some (r.toInt : ℚ) := by
  simp only [apply, Number.div, result?]
  by_cases hb : b.toInt = 0
  · simp [hb]
  · rw [if_neg hb, Option.some.injEq, div_eq_intCast_iff hb]
    split
    next h => rw [exactOr_eq_int_iff, and_iff_right h.2]
    next h => exact ⟨nofun, fun heq => absurd ⟨hb, heq.1⟩ h⟩

theorem rem_eq_int_iff : rem.apply (int a) (int b) = int r ↔
    rem.result? a.toInt b.toInt = some (r.toInt : ℚ) ∧ ¬rem.IsLeastByMinusOne a b := by
  simp only [apply, Number.rem, result?]
  by_cases hb : b.toInt = 0
  · simp [hb]
  · have hfits : fitsWord (a.toInt.tmod b.toInt) = true := by
      have hlt := abs_tmod_lt (a := a.toInt) hb
      have hlo := b.le_toInt
      have hhi := b.toInt_lt
      rw [Int.abs_eq_natAbs b.toInt, abs_lt] at hlt
      rw [fitsWord_iff]
      omega
    have hexception : rem.IsLeastByMinusOne a b ↔ a = Int64.minValue ∧ b = -1 := and_iff_right rfl
    rw [if_neg hb, Option.some.injEq, ← tmod_eq_sub_truncated hb, Int.cast_inj, hexception,
      ← fitsWord_tdiv_iff hb]
    split
    next h => rw [ofInt_eq_iff hfits, and_iff_left h.2]
    next h => exact ⟨nofun, fun heq => absurd ⟨hb, heq.2⟩ h⟩

theorem apply_eq_int_iff (op : Operation) : op.apply (int a) (int b) = int r ↔
    op.result? a.toInt b.toInt = some (r.toInt : ℚ) ∧ ¬op.IsLeastByMinusOne a b := by
  cases op with
  | add | sub | mul =>
    rw [and_iff_left (fun h => nomatch h.1)]
    simp only [apply, Number.add, Number.sub, Number.mul, result?, exactOr_eq_int_iff,
      Option.some.injEq]
    norm_cast
  | div => rw [div_eq_int_iff, and_iff_left (fun h => nomatch h.1)]
  | rem => exact rem_eq_int_iff

theorem apply_float (op : Operation) (x y : Float) : ∃ z, op.apply (float x) (float y) = float z := by
  cases op <;> exact ⟨_, rfl⟩

theorem apply_int_cases (op : Operation) (a b : Int64) :
    (∃ r, op.apply (int a) (int b) = int r) ∨
      op.apply (int a) (int b) = op.apply (float (int a).toFloat) (float (int b).toFloat) := by
  cases op with
  | add | sub | mul => exact exactOr_cases _ _
  | div =>
    simp only [apply, Number.div]
    split
    · exact exactOr_cases _ _
    · exact .inr rfl
  | rem =>
    simp only [apply, Number.rem]
    split
    · exact .inl ⟨_, rfl⟩
    · exact .inr rfl

end Operation

/-- An operation on two integers gives an integer if and only if the result in mathematics is an
integer in range, and then this one; only the remainder of the least integer by minus one is none.
Everything else, a division by zero too, is the result for the nearest floats. -/
theorem integer_arithmetic (a b : Int64) :
    (∀ (op : Operation) (r : Int64), op.apply (int a) (int b) = int r ↔
      op.result? a.toInt b.toInt = some (r.toInt : ℚ) ∧ ¬op.IsLeastByMinusOne a b) ∧
    (∀ op : Operation,
      (∃ x, op.apply (int a) (int b) = float x ∧
        op.apply (float (int a).toFloat) (float (int b).toFloat) = float x) ↔
      (∀ r : Int64, op.result? a.toInt b.toInt ≠ some (r.toInt : ℚ)) ∨ op.IsLeastByMinusOne a b) ∧
    (∀ r : Int64, (int a).neg = int r ↔ -a.toInt = r.toInt) ∧
    ((∃ x, (int a).neg = float x ∧ (float (int a).toFloat).neg = float x) ↔
      ∀ r : Int64, -a.toInt ≠ r.toInt) := by
  refine ⟨fun op r => op.apply_eq_int_iff, fun op => ?_, fun r => exactOr_eq_int_iff, ?_⟩
  · rcases op.apply_int_cases a b with ⟨r, hr⟩ | hfloat
    · obtain ⟨hexact, hordinary⟩ := op.apply_eq_int_iff.1 hr
      simp only [hr]
      exact ⟨nofun, fun h => absurd hexact (h.resolve_right hordinary r)⟩
    · obtain ⟨x, hx⟩ := op.apply_float (int a).toFloat (int b).toFloat
      rw [hx] at hfloat
      refine ⟨fun _ => ?_, fun _ => ⟨x, hfloat, hx⟩⟩
      by_cases h : op.IsLeastByMinusOne a b
      · exact .inr h
      · refine .inl fun r hr => ?_
        have hint := op.apply_eq_int_iff.2 ⟨hr, h⟩
        cases hfloat.symm.trans hint
  · rcases exactOr_cases (-a.toInt) (-(int a).toFloat) with ⟨r, hr⟩ | hfloat
    · have hneg : (int a).neg = int r := hr
      simp only [hneg]
      exact ⟨nofun, fun h => absurd (exactOr_eq_int_iff.1 hr) (h r)⟩
    · refine ⟨fun _ r hr => ?_, fun _ => ⟨_, hfloat, rfl⟩⟩
      cases hfloat.symm.trans (exactOr_eq_int_iff.2 hr)

example : div (int 7) (int 2) = float 3.5 := by decide +kernel

example : rem (int Int64.minValue) (int (-1)) = float (-0.0) := by decide +kernel

end LiveDoc.Number
