import LiveDoc.Number.Basic
import LiveDoc.Proofs.ShortestDecimals

namespace LiveDoc

namespace Decimal.Binary

open Float.Model (UnpackedFloat)

def magnitude (m : Nat) (q : Int) : Nat :=
  if m < 2 ^ 52 then m else (q - leastExponent + 1).toNat * 2 ^ 52 + (m - 2 ^ 52)

def bits? : Binary → Option Nat
  | nan => none
  | infinite negative => some ((if negative then 2 ^ 63 else 0) + 2047 * 2 ^ 52)
  | finite negative m q => some ((if negative then 2 ^ 63 else 0) + magnitude m q)

theorem magnitude_of_lt {m : Nat} (hm : m < 2 ^ 52) (q : Int) : magnitude m q = m :=
  if_pos hm

theorem magnitude_add (fraction : Nat) (q : Int) :
    magnitude (2 ^ 52 + fraction) q = (q - leastExponent + 1).toNat * 2 ^ 52 + fraction := by
  rw [magnitude, if_neg (by omega), Nat.add_sub_cancel_left]

theorem bits?_ofBits (bits : UInt64) :
    (ofBits bits = .nan ∧ bits.toNat / 2 ^ 52 % 2 ^ 11 = 2047 ∧ bits.toNat % 2 ^ 52 ≠ 0) ∨
      (ofBits bits).bits? = some bits.toNat := by
  have hlt : bits.toNat < 2 ^ 64 := bits.toNat_lt
  have hsign : (if decide (2 ^ 63 ≤ bits.toNat) = true then 2 ^ 63 else 0) +
      (bits.toNat / 2 ^ 52 % 2 ^ 11 * 2 ^ 52 + bits.toNat % 2 ^ 52) = bits.toNat := by
    simp only [decide_eq_true_eq]
    split <;> omega
  simp only [ofBits, Nat.pow_eq]
  split
  next hexp =>
    rw [hexp] at hsign
    right
    rw [bits?, magnitude_of_lt (Nat.mod_lt _ (by decide))]
    rw [Nat.zero_mul, Nat.zero_add] at hsign
    exact congrArg some hsign
  next hexp =>
    split
    next hzero =>
      rw [hexp, hzero] at hsign
      right
      exact congrArg some hsign
    next hne => exact .inl ⟨rfl, hexp, hne⟩
  next e hzero hmax =>
    have hexp : bits.toNat / 2 ^ 52 % 2 ^ 11 ≠ 0 := hzero
    have hfield : (leastExponent + ((bits.toNat / 2 ^ 52 % 2 ^ 11 - 1 : Nat) : Int) -
        leastExponent + 1).toNat = bits.toNat / 2 ^ 52 % 2 ^ 11 := by omega
    right
    rw [bits?, magnitude_add, hfield]
    exact congrArg some hsign

theorem toBitVec_eq_packedNaN {x : Float} (hexp : x.toBits.toNat / 2 ^ 52 % 2 ^ 11 = 2047)
    (hfraction : x.toBits.toNat % 2 ^ 52 ≠ 0) :
    x.toBits.toBitVec = UnpackedFloat.packedNaN .binary64 := by
  apply x.toModel.valid.eq_packedNaN
  · apply BitVec.eq_of_toNat_eq
    have hshift : x.toBits.toNat >>> 52 % 2 ^ 11 = 2047 := by
      rw [Nat.shiftRight_eq_div_pow]
      exact hexp
    simpa [Float.toBits, UnpackedFloat.unpackExponent, BitVec.extractLsb] using hshift
  · intro hzero
    apply hfraction
    have htoNat := congrArg BitVec.toNat hzero
    simpa [Float.toBits, UnpackedFloat.unpackMantissa, BitVec.extractLsb] using htoNat

/-- There is one double that is not a number; the others differ as they are written in their
bits. -/
theorem ofFloat_injective {x y : Float} (h : ofFloat x = ofFloat y) : x = y := by
  rw [← Float.toBits_inj]
  rw [ofFloat, ofFloat] at h
  rcases bits?_ofBits x.toBits with ⟨hx, hexp, hfraction⟩ | hx
  · rcases bits?_ofBits y.toBits with ⟨-, hexp', hfraction'⟩ | hy
    · apply UInt64.toBitVec_inj.1
      rw [toBitVec_eq_packedNaN hexp hfraction, toBitVec_eq_packedNaN hexp' hfraction']
    · rw [← h, hx] at hy
      cases hy
  · rw [h] at hx
    rcases bits?_ofBits y.toBits with ⟨hy, -, -⟩ | hy
    · rw [hy] at hx
      cases hx
    · rw [← UInt64.toNat_inj]
      exact Option.some.inj (hx.symm.trans hy)

theorem isPositive_of_ofFloat {x : Float} {negative : Bool} {m : Nat} {q : Int}
    (h : ofFloat x = .finite negative m q) (hm : 0 < m) : IsPositive m q := by
  simp only [ofFloat, ofBits, Nat.pow_eq] at h
  split at h
  · cases h
    exact ⟨hm, by omega, le_rfl, .inr rfl⟩
  · split at h <;> cases h
  next e hzero hmax =>
    cases h
    exact ⟨hm, by omega, by omega, .inl (by omega)⟩

theorem eq_zero_of_ofFloat {x : Float} {negative : Bool} {q : Int}
    (h : ofFloat x = .finite negative 0 q) : x = 0.0 ∨ x = -0.0 := by
  have hzero : ofFloat 0.0 = .finite false 0 leastExponent := by decide +kernel
  have hnegative : ofFloat (-0.0) = .finite true 0 leastExponent := by decide +kernel
  have hq : q = leastExponent := by
    simp only [ofFloat, ofBits, Nat.pow_eq] at h
    split at h
    · exact (Binary.finite.inj h).2.2.symm
    · split at h <;> cases h
    · have hmantissa := (Binary.finite.inj h).2.1
      omega
  subst hq
  cases negative with
  | false => exact .inl (ofFloat_injective (h.trans hzero.symm))
  | true => exact .inr (ofFloat_injective (h.trans hnegative.symm))

end Decimal.Binary

namespace Decimal

theorem isDigit_or_point_of_mem_positional {d : Digits} {c : Char}
    (hc : c ∈ positional false d) : c.isDigit = true ∨ c = '.' := by
  have hdigits {c : Char} (hc : c ∈ d.list) : c.isDigit = true :=
    Nat.isDigit_of_mem_toDigits (by decide) (by decide) hc
  have hzeros {c : Char} {n : Nat} (hc : c ∈ List.replicate n '0') : c.isDigit = true := by
    rw [List.eq_of_mem_replicate hc]
    rfl
  simp only [positional] at hc
  split at hc
  · rw [if_neg Bool.false_ne_true, List.append_nil, List.mem_append] at hc
    exact .inl (hc.elim hdigits hzeros)
  · split at hc
    · rw [List.mem_append, List.mem_cons] at hc
      rcases hc with hc | rfl | hc
      · exact .inl (hdigits (List.mem_of_mem_take hc))
      · exact .inr rfl
      · exact .inl (hdigits (List.mem_of_mem_drop hc))
    · rw [List.mem_append, List.mem_cons, List.mem_cons] at hc
      rcases hc with (rfl | rfl | hc) | hc
      · exact .inl rfl
      · exact .inr rfl
      · exact .inl (hzeros hc)
      · exact .inl (hdigits hc)

theorem toDigits_injective {m n : Nat} (h : Nat.toDigits 10 m = Nat.toDigits 10 n) : m = n := by
  have hvalue := congrArg (Nat.ofDigitChars 10 · 0) h
  simpa only [Nat.ofDigitChars_ten_toDigits] using hvalue

theorem minus_not_mem_toDigits (n : Nat) : '-' ∉ Nat.toDigits 10 n := by
  intro hmem
  exact absurd (Nat.isDigit_of_mem_toDigits (by decide) (by decide) hmem) (by decide)

theorem intText_injective {m n : Int} (h : intText m = intText n) : m = n := by
  have hne (a : Nat) (cs : List Char) : Nat.toDigits 10 a ≠ '-' :: cs := by
    intro heq
    exact minus_not_mem_toDigits a (heq ▸ List.mem_cons_self ..)
  rw [intText, intText] at h
  split at h
  · split at h
    · have habs := toDigits_injective (List.cons.inj h).2
      omega
    · exact absurd h.symm (hne _ _)
  · split at h
    · exact absurd h (hne _ _)
    · have habs := toDigits_injective h
      omega

/-- Decimals of doubles with one text and their signs are those of one double. -/
theorem eq_of_positional {m m' : Nat} {q q' : Int} (h : IsPositive m q) (h' : IsPositive m' q')
    {tie : Tie} (heq : positional false (shortest tie m q) =
      positional false (shortest tie m' q')) : m = m' ∧ q = q' := by
  have hvalue : (shortest tie m q).value = (shortest tie m' q').value := by
    rw [← textValue_positional, heq, textValue_positional]
  exact eq_of_value_shortest h h' hvalue

theorem positional_ne_zero {m : Nat} {q : Int} (h : IsPositive m q) (tie : Tie) :
    positional false (shortest tie m q) ≠ ['0'] := by
  intro heq
  have hpos := value_shortest_pos h tie
  rw [← textValue_positional, heq, textValue_whole (by simp)] at hpos
  simp [Nat.ofDigitChars_cons] at hpos

end Decimal

namespace Number

open Decimal

theorem text_of_finite {x : Float} {negative : Bool} {m : Nat} {q : Int}
    (h : Binary.ofFloat x = .finite negative m q) (hm : 0 < m) :
    (float x).text = String.ofList (if negative then '-' :: positional false (shortest .up m q)
      else positional false (shortest .up m q)) := by
  rw [text, h]
  exact if_neg hm.ne'

def IsNumeral (s : String) : Prop :=
  ∀ c ∈ s.toList, c.isDigit = true ∨ c = '.' ∨ c = '-'

theorem isNumeral_digits (n : Int) : IsNumeral (String.ofList (intText n)) := by
  have hdigits {c : Char} (hc : c ∈ Nat.toDigits 10 n.natAbs) :
      c.isDigit = true ∨ c = '.' ∨ c = '-' :=
    .inl (Nat.isDigit_of_mem_toDigits (by decide) (by decide) hc)
  rw [IsNumeral, String.toList_ofList, intText]
  split
  · exact List.forall_mem_cons.2 ⟨.inr (.inr rfl), fun c hc => hdigits hc⟩
  · exact fun c hc => hdigits hc

theorem isNumeral_of_finite {x : Float} {negative : Bool} {m : Nat} {q : Int}
    (h : Binary.ofFloat x = .finite negative m q) : IsNumeral (float x).text := by
  rcases Nat.eq_zero_or_pos m with rfl | hm
  · simp [text, h, IsNumeral]
  · have hdigits : ∀ c ∈ positional false (shortest .up m q),
        c.isDigit = true ∨ c = '.' ∨ c = '-' :=
      fun c hc => (isDigit_or_point_of_mem_positional hc).imp_right .inl
    rw [text_of_finite h hm, IsNumeral, String.toList_ofList]
    split
    · exact List.forall_mem_cons.2 ⟨.inr (.inr rfl), hdigits⟩
    · exact hdigits

/-- Numbers are written in digits, but for the infinities and what is not a number. -/
theorem text_cases (n : Number) :
    n.text ∈ ["NaN", "Infinity", "-Infinity"] ∨ IsNumeral n.text := by
  cases n with
  | int n => exact .inr (isNumeral_digits n.toInt)
  | float x =>
    cases h : Binary.ofFloat x with
    | nan =>
      rw [text, h]
      exact .inl (by simp)
    | infinite negative =>
      rw [text, h]
      cases negative <;> exact .inl (by simp)
    | finite negative m q => exact .inr (isNumeral_of_finite h)

theorem eq_of_finite_text {x y : Float} {negative negative' : Bool} {m m' : Nat} {q q' : Int}
    (hx : Binary.ofFloat x = .finite negative m q) (hm : 0 < m)
    (hy : Binary.ofFloat y = .finite negative' m' q') (hm' : 0 < m')
    (h : (float x).text = (float y).text) : x = y := by
  have hne {tie : Tie} {m : Nat} {q : Int} (cs : List Char) :
      positional false (shortest tie m q) ≠ '-' :: cs := by
    intro heq
    have hmem := isDigit_or_point_of_mem_positional (heq ▸ List.mem_cons_self (a := '-') (l := cs))
    exact absurd hmem (by decide)
  have hdouble (heq : positional false (shortest .up m q) = positional false (shortest .up m' q'))
      (hsign : negative = negative') : x = y := by
    obtain ⟨rfl, rfl⟩ := eq_of_positional (Binary.isPositive_of_ofFloat hx hm)
      (Binary.isPositive_of_ofFloat hy hm') heq
    subst hsign
    exact Binary.ofFloat_injective (hx.trans hy.symm)
  rw [text_of_finite hx hm, text_of_finite hy hm', String.ofList_inj] at h
  cases negative with
  | false =>
    cases negative' with
    | false => exact hdouble h rfl
    | true => exact absurd h (hne _)
  | true =>
    cases negative' with
    | false => exact absurd h.symm (hne _)
    | true => exact hdouble (List.cons.inj h).2 rfl

theorem text_zero_ne {x y : Float} {negative negative' : Bool} {m : Nat} {q q' : Int}
    (hx : Binary.ofFloat x = .finite negative 0 q)
    (hy : Binary.ofFloat y = .finite negative' m q') (hm : 0 < m) :
    (float x).text ≠ (float y).text := by
  have hzero : (float x).text = String.ofList ['0'] := by
    rw [text, hx]
    rfl
  rw [hzero, text_of_finite hy hm, ne_eq, String.ofList_inj]
  intro heq
  split at heq
  · exact absurd (List.cons.inj heq).1 (by decide)
  · exact positional_ne_zero (Binary.isPositive_of_ofFloat hy hm) _ heq.symm

theorem not_isNumeral_of_special {x : Float}
    (hx : ∀ negative m q, Binary.ofFloat x ≠ .finite negative m q) :
    ¬IsNumeral (float x).text := by
  cases h : Binary.ofFloat x with
  | nan => simp [text, h, IsNumeral]
  | infinite negative => cases negative <;> simp [text, h, IsNumeral]
  | finite negative m q => exact absurd h (hx negative m q)

theorem eq_of_special_text {x y : Float}
    (hx : ∀ negative m q, Binary.ofFloat x ≠ .finite negative m q)
    (hy : ∀ negative m q, Binary.ofFloat y ≠ .finite negative m q)
    (h : (float x).text = (float y).text) : x = y := by
  apply Binary.ofFloat_injective
  cases hx' : Binary.ofFloat x with
  | finite negative m q => exact absurd hx' (hx negative m q)
  | nan | infinite negative =>
    cases hy' : Binary.ofFloat y with
    | finite negative m q => exact absurd hy' (hy negative m q)
    | nan | infinite negative' =>
      simp only [text, hx', hy'] at h
      revert h
      (try cases negative) <;> (try cases negative') <;> decide

/-- Two floats with one text are one float, if they are not the two zeros. -/
theorem eq_of_float_text {x y : Float} (h : (float x).text = (float y).text) :
    x = y ∨ x = 0.0 ∧ y = -0.0 ∨ x = -0.0 ∧ y = 0.0 := by
  by_cases hx : ∃ negative m q, Binary.ofFloat x = .finite negative m q
  · by_cases hy : ∃ negative m q, Binary.ofFloat y = .finite negative m q
    · obtain ⟨s, m, q, hx⟩ := hx
      obtain ⟨s', m', q', hy⟩ := hy
      rcases Nat.eq_zero_or_pos m with rfl | hm
      · rcases Nat.eq_zero_or_pos m' with rfl | hm'
        · rcases Binary.eq_zero_of_ofFloat hx with rfl | rfl <;>
            rcases Binary.eq_zero_of_ofFloat hy with rfl | rfl <;> simp
        · exact absurd h (text_zero_ne hx hy hm')
      · rcases Nat.eq_zero_or_pos m' with rfl | hm'
        · exact absurd h.symm (text_zero_ne hy hx hm)
        · exact .inl (eq_of_finite_text hx hm hy hm' h)
    · obtain ⟨s, m, q, hx⟩ := hx
      exact absurd (h ▸ isNumeral_of_finite hx)
        (not_isNumeral_of_special fun s m q hy' => hy ⟨s, m, q, hy'⟩)
  · have hspecial : ∀ s m q, Binary.ofFloat x ≠ .finite s m q :=
      fun s m q hx' => hx ⟨s, m, q, hx'⟩
    by_cases hy : ∃ negative m q, Binary.ofFloat y = .finite negative m q
    · obtain ⟨s, m, q, hy⟩ := hy
      exact absurd (h ▸ isNumeral_of_finite hy) (not_isNumeral_of_special hspecial)
    · exact .inl (eq_of_special_text hspecial (fun s m q hy' => hy ⟨s, m, q, hy'⟩) h)

theorem int_text_injective {m n : Int64} (h : (int m).text = (int n).text) : m = n :=
  Int64.toInt_inj.1 (intText_injective (String.ofList_injective h))

end Number

end LiveDoc
