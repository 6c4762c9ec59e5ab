import LiveDoc.Number.Basic
import Mathlib

namespace LiveDoc

open Float.Model (UnpackedFloat)

/-- Two floats are equal if the first is a number and they are the same, or if both are zeros. -/
theorem unpacked_beq_iff {a b : UnpackedFloat} :
    a.beq b = true ↔ a.isNaN = false ∧ (a = b ∨ ∃ s t, a = .zero s ∧ b = .zero t) := by
  -- the signs decide all but the order of two finite floats
  rcases a with s | _ | s | ⟨s, m, e, hm⟩ <;> rcases b with t | _ | t | ⟨t, n, f, hn⟩ <;>
    (try cases s) <;> (try cases t) <;>
    simp [UnpackedFloat.beq, UnpackedFloat.compare, UnpackedFloat.isNaN, Ordering.then_eq_eq,
      and_comm]
  all_goals rfl

theorem float_beq_comm (x y : Float) : (x == y) = (y == x) := by
  change x.toModel.unpack.beq y.toModel.unpack = y.toModel.unpack.beq x.toModel.unpack
  rw [Bool.eq_iff_iff, unpacked_beq_iff, unpacked_beq_iff]
  constructor
  · rintro ⟨hx, heq | ⟨s, t, hs, ht⟩⟩
    · exact ⟨heq ▸ hx, .inl heq.symm⟩
    · exact ⟨by rw [ht]; rfl, .inr ⟨t, s, ht, hs⟩⟩
  · rintro ⟨hy, heq | ⟨s, t, hs, ht⟩⟩
    · exact ⟨heq ▸ hy, .inl heq.symm⟩
    · exact ⟨by rw [ht]; rfl, .inr ⟨t, s, ht, hs⟩⟩

theorem float_beq_self {x : Float} (hx : x.isNaN = false) : (x == x) = true :=
  unpacked_beq_iff.2 ⟨hx, .inl rfl⟩

namespace Number

theorem equals_comm (a b : Number) : a.equals b = b.equals a := by
  cases a with
  | int m =>
    cases b with
    | int n => exact Bool.beq_comm
    | float y => exact float_beq_comm ..
  | float x => cases b <;> exact float_beq_comm ..

theorem equals_self {a : Number} (ha : a.isNaN = false) : a.equals a = true := by
  cases a with
  | int n => exact beq_self_eq_true n
  | float x => exact float_beq_self ha

end Number

end LiveDoc
