import LiveDoc.Proofs.Conversions

namespace LiveDoc.Number

open Decimal

/-- The exact value, if the number is one. -/
def value? : Number → Option Extended
  | .int n => some (.ofRat n.toInt)
  | .float x => floatValue? x

/-- What a number counts as when it is compared with another one. -/
def beside? : Number → Number → Option Extended
  | .int n, .float _ => some (.ofRat (rounded n.toInt))
  | a, _ => a.value?

def AtMost (a b : Number) : Prop :=
  a.compare? b = some .lt ∨ a.compare? b = some .eq

/-- Different integers, and a float between them that is the nearest double of both. -/
def Blurred (a b c : Number) : Prop :=
  ∃ m n x, a = .int m ∧ b = .float x ∧ c = .int n ∧ m ≠ n ∧
    floatValue? x = some (.ofRat (rounded m.toInt)) ∧ floatValue? x = some (.ofRat (rounded n.toInt))

/-- Both numbers count as their exact values: they are of one kind, or the integer is a double. -/
def CountExactly : Number → Number → Prop
  | .int n, .float _ => IsDouble n.toInt
  | .float _, .int n => IsDouble n.toInt
  | _, _ => True

theorem floatValue?_toFloat (n : Int64) :
    floatValue? (toFloat (.int n)) = some (.ofRat (rounded n.toInt)) := by
  have hlo := n.le_toInt
  have hhi := n.toInt_lt
  exact floatValue?_ofInt (by omega)

theorem exists_floatValue {x : Float} (hx : (float x).isNaN = false) : ∃ v, floatValue? x = some v := by
  change x.isNaN = false at hx
  rwa [isNaN_eq, Option.isNone_eq_false_iff, Option.isSome_iff_exists] at hx

theorem exists_beside {a : Number} (ha : a.isNaN = false) (b : Number) : ∃ v, a.beside? b = some v := by
  cases a with
  | int n => cases b <;> exact ⟨_, rfl⟩
  | float x => exact exists_floatValue ha

section

variable {a b c : Number} {v w : Extended}

theorem order_floats {x y : Float} (hx : floatValue? x = some v) (hy : floatValue? y = some w) :
    (if x < y then some Ordering.lt else if y < x then some .gt else if x == y then some .eq else none) =
      some (cmp v w) := by
  simp only [float_lt_iff hx hy, float_lt_iff hy hx, float_beq_iff hx hy]
  rcases lt_trichotomy v w with hlt | rfl | hgt
  · rw [if_pos hlt, (cmp_eq_lt_iff _ _).2 hlt]
  · rw [if_neg (lt_irrefl v), if_neg (lt_irrefl v), if_pos rfl, cmp_self_eq_eq]
  · rw [if_neg hgt.asymm, if_pos hgt, (cmp_eq_gt_iff _ _).2 hgt]

theorem compare?_eq (ha : a.beside? b = some v) (hb : b.beside? a = some w) :
    a.compare? b = some (cmp v w) := by
  cases a with
  | int m =>
    cases b with
    | int n =>
      cases ha
      cases hb
      rw [cmp_ofRat, Int.cast_strictMono.cmp_map_eq, cmp_eq_compare]
      rfl
    | float y =>
      cases ha
      exact order_floats (floatValue?_toFloat m) hb
  | float x =>
    cases b with
    | int n =>
      cases hb
      exact order_floats ha (floatValue?_toFloat n)
    | float y => exact order_floats ha hb

theorem equals_iff (ha : a.beside? b = some v) (hb : b.beside? a = some w) :
    a.equals b = true ↔ v = w := by
  cases a with
  | int m =>
    cases b with
    | int n =>
      cases ha
      cases hb
      rw [ofRat_inj, Int.cast_inj, Int64.toInt_inj]
      exact beq_iff_eq
    | float y =>
      cases ha
      exact float_beq_iff (floatValue?_toFloat m) hb
  | float x =>
    cases b with
    | int n =>
      cases hb
      exact float_beq_iff ha (floatValue?_toFloat n)
    | float y => exact float_beq_iff ha hb

theorem atMost_iff (ha : a.beside? b = some v) (hb : b.beside? a = some w) : a.AtMost b ↔ v ≤ w := by
  rw [AtMost, compare?_eq ha hb, Option.some.injEq, Option.some.injEq, cmp_eq_lt_iff, cmp_eq_eq_iff,
    le_iff_lt_or_eq]

section

variable {m n : Int64} {x y : Float}

theorem int_atMost_int : (int m).AtMost (.int n) ↔ Extended.ofRat m.toInt ≤ .ofRat n.toInt :=
  atMost_iff rfl rfl

theorem int_atMost_float (hy : floatValue? y = some w) :
    (int m).AtMost (.float y) ↔ Extended.ofRat (rounded m.toInt) ≤ w :=
  atMost_iff (a := .int m) (b := .float y) rfl hy

theorem float_atMost_int (hx : floatValue? x = some v) :
    (float x).AtMost (.int n) ↔ v ≤ Extended.ofRat (rounded n.toInt) :=
  atMost_iff (a := .float x) (b := .int n) hx rfl

theorem float_atMost_float (hx : floatValue? x = some v) (hy : floatValue? y = some w) :
    (float x).AtMost (.float y) ↔ v ≤ w :=
  atMost_iff (a := .float x) (b := .float y) hx hy

end

theorem ofRat_rounded_le {m n : Int64} (h : Extended.ofRat m.toInt ≤ .ofRat n.toInt) :
    Extended.ofRat (rounded m.toInt) ≤ .ofRat (rounded n.toInt) :=
  ofRat_le_ofRat.2 (Int.cast_le.2 (rounded_mono (Int.cast_le.1 (ofRat_le_ofRat.1 h))))

/-- The float between two integers is the double of both if the first of them is the greater one. -/
theorem atMost_or_blurred {m n : Int64} {x : Float} (hx : floatValue? x = some v)
    (hm : Extended.ofRat (rounded m.toInt) ≤ v) (hn : v ≤ .ofRat (rounded n.toInt)) :
    (int m).AtMost (.int n) ∨ Blurred (.int m) (.float x) (.int n) := by
  rcases le_or_gt m.toInt n.toInt with hle | hlt
  · left
    exact (atMost_iff rfl rfl).2 (ofRat_le_ofRat.2 (Int.cast_le.2 hle))
  · right
    have hback := ofRat_rounded_le (ofRat_le_ofRat.2 (Int.cast_le.2 hlt.le))
    have hne : m ≠ n := by
      rintro rfl
      exact lt_irrefl _ hlt
    refine ⟨m, n, x, rfl, rfl, rfl, hne, ?_, ?_⟩
    · rw [hx, le_antisymm hm (hn.trans hback)]
    · rw [hx, le_antisymm hn (hback.trans hm)]

/-- Beside a float in place of an integer, the integers that are left are rounded, and stay in their
order. -/
theorem atMost_trans (ha : a.isNaN = false) (hb : b.isNaN = false) (hc : c.isNaN = false)
    (hab : a.AtMost b) (hbc : b.AtMost c) : a.AtMost c ∨ Blurred a b c := by
  cases a with
  | int m =>
    cases b with
    | int k =>
      left
      rw [int_atMost_int] at hab
      cases c with
      | int n =>
        rw [int_atMost_int] at hbc ⊢
        exact hab.trans hbc
      | float z =>
        obtain ⟨w, hz⟩ := exists_floatValue hc
        rw [int_atMost_float hz] at hbc ⊢
        exact (ofRat_rounded_le hab).trans hbc
    | float y =>
      obtain ⟨v, hy⟩ := exists_floatValue hb
      rw [int_atMost_float hy] at hab
      cases c with
      | int n =>
        rw [float_atMost_int hy] at hbc
        -- the only case in which two roundings may hide that the order is the other way around
        exact atMost_or_blurred hy hab hbc
      | float z =>
        left
        obtain ⟨w, hz⟩ := exists_floatValue hc
        rw [float_atMost_float hy hz] at hbc
        rw [int_atMost_float hz]
        exact hab.trans hbc
  | float x =>
    left
    obtain ⟨u, hx⟩ := exists_floatValue ha
    cases b with
    | int k =>
      rw [float_atMost_int hx] at hab
      cases c with
      | int n =>
        rw [int_atMost_int] at hbc
        rw [float_atMost_int hx]
        exact hab.trans (ofRat_rounded_le hbc)
      | float z =>
        obtain ⟨w, hz⟩ := exists_floatValue hc
        rw [int_atMost_float hz] at hbc
        rw [float_atMost_float hx hz]
        exact hab.trans hbc
    | float y =>
      obtain ⟨v, hy⟩ := exists_floatValue hb
      rw [float_atMost_float hx hy] at hab
      cases c with
      | int n =>
        rw [float_atMost_int hy] at hbc
        rw [float_atMost_int hx]
        exact hab.trans hbc
      | float z =>
        obtain ⟨w, hz⟩ := exists_floatValue hc
        rw [float_atMost_float hy hz] at hbc
        rw [float_atMost_float hx hz]
        exact hab.trans hbc

theorem equals_iff_atMost (ha : a.isNaN = false) (hb : b.isNaN = false) :
    a.equals b = true ↔ a.AtMost b ∧ b.AtMost a := by
  obtain ⟨v, hv⟩ := exists_beside ha b
  obtain ⟨w, hw⟩ := exists_beside hb a
  rw [equals_iff hv hw, atMost_iff hv hw, atMost_iff hw hv, le_antisymm_iff]

theorem Blurred.symm (h : Blurred a b c) : Blurred c b a := by
  obtain ⟨m, n, x, ha, hb, hc, hne, hm, hn⟩ := h
  exact ⟨n, m, x, hc, hb, ha, hne.symm, hn, hm⟩

theorem Blurred.equals_eq_false (h : Blurred a b c) : a.equals c = false := by
  obtain ⟨m, n, x, rfl, -, rfl, hne, -, -⟩ := h
  exact beq_false_of_ne hne

theorem equals_trans_iff (ha : a.isNaN = false) (hb : b.isNaN = false) (hc : c.isNaN = false)
    (hab : a.equals b = true) (hbc : b.equals c = true) : a.equals c = true ↔ ¬Blurred a b c := by
  rw [equals_iff_atMost ha hb] at hab
  rw [equals_iff_atMost hb hc] at hbc
  constructor
  · intro hac hblurred
    rw [hblurred.equals_eq_false] at hac
    cases hac
  · intro hnot
    rw [equals_iff_atMost ha hc]
    constructor
    · exact (atMost_trans ha hb hc hab.1 hbc.1).resolve_right hnot
    · exact (atMost_trans hc hb ha hbc.2 hab.2).resolve_right fun h => hnot h.symm

theorem beside?_eq_value? (h : CountExactly a b) : a.beside? b = a.value? ∧ b.beside? a = b.value? := by
  cases a with
  | int m =>
    cases b with
    | int n => exact ⟨rfl, rfl⟩
    | float y => exact ⟨congrArg (fun n : Int => some (Extended.ofRat n)) (rounded_eq_self h), rfl⟩
  | float x =>
    cases b with
    | int n => exact ⟨rfl, congrArg (fun n : Int => some (Extended.ofRat n)) (rounded_eq_self h)⟩
    | float y => exact ⟨rfl, rfl⟩

theorem eq_bot_or_top_or_ofRat (v : Extended) : v = ⊥ ∨ v = ⊤ ∨ ∃ r, v = .ofRat r := by
  induction v using WithBot.recBotCoe with
  | bot => exact .inl rfl
  | coe v =>
    induction v using WithTop.recTopCoe with
    | top => exact .inr (.inl rfl)
    | coe r => exact .inr (.inr ⟨r, rfl⟩)

theorem ofRat_rounded_le_of_le {n : Int} {x : Float} (hx : floatValue? x = some v)
    (h : Extended.ofRat n ≤ v) : Extended.ofRat (rounded n) ≤ v := by
  rcases eq_bot_or_top_or_ofRat v with rfl | rfl | ⟨r, rfl⟩
  · exact absurd (bot_lt_ofRat n) h.not_gt
  · exact le_top
  · exact ofRat_le_ofRat.2 (rounded_le (isDouble_of_floatValue? hx) (ofRat_le_ofRat.1 h))

theorem le_ofRat_rounded_of_le {n : Int} {x : Float} (hx : floatValue? x = some v)
    (h : v ≤ Extended.ofRat n) : v ≤ Extended.ofRat (rounded n) := by
  rcases eq_bot_or_top_or_ofRat v with rfl | rfl | ⟨r, rfl⟩
  · exact bot_le
  · exact absurd (ofRat_lt_top n) h.not_gt
  · exact ofRat_le_ofRat.2 (le_rounded (isDouble_of_floatValue? hx) (ofRat_le_ofRat.1 h))

theorem atMost_of_value_le (ha : a.value? = some v) (hb : b.value? = some w) (h : v ≤ w) :
    a.AtMost b := by
  cases a with
  | int m =>
    cases ha
    cases b with
    | int n =>
      cases hb
      exact int_atMost_int.2 h
    | float y => exact (int_atMost_float hb).2 (ofRat_rounded_le_of_le hb h)
  | float x =>
    cases b with
    | int n =>
      cases hb
      exact (float_atMost_int ha).2 (le_ofRat_rounded_of_le ha h)
    | float y => exact (float_atMost_float ha hb).2 h

/-- Numbers are compared by their values, where an integer beside a float counts as the nearest double.
Of two numbers, the first one is less, equal or greater. They are compared as their exact values if
these are what they count as, and never against the order of their exact values. Equality and order go
on from one pair to the next one, but for two integers with a float that is the nearest double of
both. -/
theorem compare_by_value (ha : a.isNaN = false) (hb : b.isNaN = false) (hc : c.isNaN = false) :
    (∃ x y, a.beside? b = some x ∧ b.beside? a = some y ∧ a.compare? b = some (cmp x y)) ∧
    (a.equals b = true ↔ a.compare? b = some .eq) ∧
    (CountExactly a b → ∃ x y, a.value? = some x ∧ b.value? = some y ∧
      a.compare? b = some (cmp x y)) ∧
    (∀ x y, a.value? = some x → b.value? = some y → x ≤ y → a.AtMost b) ∧
    (a.equals b = true → b.equals c = true → (a.equals c = true ↔ ¬Blurred a b c)) ∧
    (a.AtMost b → b.AtMost c → a.AtMost c ∨ Blurred a b c) := by
  obtain ⟨v, hv⟩ := exists_beside ha b
  obtain ⟨w, hw⟩ := exists_beside hb a
  have hcompare := compare?_eq hv hw
  refine ⟨⟨v, w, hv, hw, hcompare⟩, ?_, fun hexact => ?_, fun x y => atMost_of_value_le,
    equals_trans_iff ha hb hc, atMost_trans ha hb hc⟩
  · rw [equals_iff hv hw, hcompare, Option.some.injEq, cmp_eq_eq_iff]
  · obtain ⟨ha', hb'⟩ := beside?_eq_value? hexact
    exact ⟨v, w, ha' ▸ hv, hb' ▸ hw, hcompare⟩

end

/-- The float `2 ^ 53` is the nearest double of `2 ^ 53 + 1`, too. -/
theorem blurred_by_rounding :
    (float (.ofBits 0x4340000000000000)).isNaN = false ∧
    Blurred (.int 9007199254740993) (.float (.ofBits 0x4340000000000000)) (.int 9007199254740992) := by
  have hnumber : (float (.ofBits 0x4340000000000000)).isNaN = false := by decide +kernel
  obtain ⟨-, -, -, -, hequal, -⟩ := compare_by_value (a := .int 9007199254740993)
    (c := .int 9007199254740992) rfl hnumber rfl
  have hdiffer : (int 9007199254740993).equals (.int 9007199254740992) = false := by decide +kernel
  refine ⟨hnumber, by_contra fun hnot => ?_⟩
  rw [(hequal (by decide +kernel) (by decide +kernel)).2 hnot] at hdiffer
  cases hdiffer

/-- Both `2 ^ 53 + 1` and `2 ^ 53` are equal to the float `2 ^ 53`, but not to each other. -/
theorem equality_not_transitive :
    (int 9007199254740993).equals (.float (.ofBits 0x4340000000000000)) = true ∧
    (float (.ofBits 0x4340000000000000)).equals (.int 9007199254740992) = true ∧
    (int 9007199254740993).equals (.int 9007199254740992) = false := by
  decide +kernel

end LiveDoc.Number
