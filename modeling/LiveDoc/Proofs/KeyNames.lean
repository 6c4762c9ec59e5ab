import LiveDoc.Proofs.NumberTexts
import LiveDoc.Value.Tree

namespace LiveDoc.Yaml.Tree

inductive Named : Value → String → Prop
  | null : Named .null "null"
  | bool (b : Bool) : Named (.bool b) (toString b)
  | number (n : Number) : Named (.number n) n.text
  | text (s : String) : Named (.text s) s

/-- Different scalars with one name. -/
inductive Coincide : Value → Value → Prop
  | text {v : Value} {name : String} : Named v name → Coincide (.text name) v
  | float {x : Float} {n : Int64} : (Number.float x).text = (Number.int n).text →
    Coincide (.number (.float x)) (.number (.int n))
  | zeros : Coincide (.number (.float (-0.0))) (.number (.float 0.0))

theorem named_of_key {t : Tree} {name : String} (h : t.key = .ok name) : Named t.scalar name := by
  match t with
  | .tagged _ t => exact named_of_key (t := t) h
  | .sequence _ | .mapping _ => cases h
  | .null =>
    cases h
    exact .null
  | .bool b =>
    cases h
    exact .bool b
  | .int n =>
    cases h
    exact .number _
  | .float x =>
    cases h
    exact .number _
  | .string _ =>
    cases h
    exact .text _

theorem Named.unique {v : Value} {p q : String} (hp : Named v p) (hq : Named v q) : p = q := by
  cases hp <;> cases hq <;> rfl

theorem number_text_ne {n : Number} {s : String} (hs : s ∉ ["NaN", "Infinity", "-Infinity"])
    (hc : ∃ c ∈ s.toList, c.isDigit = false ∧ c ≠ '.' ∧ c ≠ '-') : n.text ≠ s := by
  rintro rfl
  rcases n.text_cases with hmem | hnumeral
  · exact hs hmem
  · obtain ⟨c, hmem, hdigit, hpoint, hminus⟩ := hc
    rcases hnumeral c hmem with hc | hc | hc
    · rw [hdigit] at hc
      cases hc
    · exact hpoint hc
    · exact hminus hc

theorem number_text_ne_null (n : Number) : n.text ≠ "null" :=
  number_text_ne (by decide) ⟨'n', by decide⟩

theorem number_text_ne_bool (n : Number) (b : Bool) : n.text ≠ toString b := by
  cases b with
  | false => exact number_text_ne (by decide) ⟨'f', by decide⟩
  | true => exact number_text_ne (by decide) ⟨'t', by decide⟩

theorem eq_or_coincide_of_text {m n : Number} (h : m.text = n.text) :
    Value.number m = .number n ∨ Coincide (.number m) (.number n) ∨
      Coincide (.number n) (.number m) := by
  cases m with
  | int m =>
    cases n with
    | int n => exact .inl (by rw [Number.int_text_injective h])
    | float y => exact .inr (.inr (.float h.symm))
  | float x =>
    cases n with
    | int n => exact .inr (.inl (.float h))
    | float y =>
      rcases Number.eq_of_float_text h with rfl | ⟨rfl, rfl⟩ | ⟨rfl, rfl⟩
      · exact .inl rfl
      · exact .inr (.inr .zeros)
      · exact .inr (.inl .zeros)

theorem Named.eq_of_coincide {v w : Value} {p q : String} (hv : Named v p) (hw : Named w q)
    (h : Coincide v w) : p = q := by
  cases h with
  | text hname =>
    cases hv
    exact hname.unique hw
  | float h =>
    cases hv
    cases hw
    exact h
  | zeros =>
    cases hv
    cases hw
    decide +kernel

theorem bool_text_ne_null (b : Bool) : toString b ≠ "null" := by
  cases b <;> decide

/-- Two scalars have one name if they are one, or if they coincide. -/
theorem name_eq_iff {v w : Value} {p q : String} (hv : Named v p) (hw : Named w q) :
    p = q ↔ v = w ∨ Coincide v w ∨ Coincide w v := by
  constructor
  · intro heq
    cases hv with
    | text _ => exact .inr (.inl (.text (heq ▸ hw)))
    | null =>
      cases hw with
      | text _ => exact .inr (.inr (.text (heq ▸ .null)))
      | null => exact .inl rfl
      | bool b => exact absurd heq.symm (bool_text_ne_null b)
      | number n => exact absurd heq.symm (number_text_ne_null n)
    | bool b =>
      cases hw with
      | text _ => exact .inr (.inr (.text (heq ▸ .bool b)))
      | null => exact absurd heq (bool_text_ne_null b)
      | bool b' =>
        have hsame : b = b' := by
          revert heq
          cases b <;> cases b' <;> decide
        exact .inl (congrArg Value.bool hsame)
      | number n => exact absurd heq.symm (number_text_ne_bool n b)
    | number m =>
      cases hw with
      | text _ => exact .inr (.inr (.text (heq ▸ .number m)))
      | null => exact absurd heq (number_text_ne_null m)
      | bool b => exact absurd heq (number_text_ne_bool m b)
      | number n => exact eq_or_coincide_of_text heq
  · rintro (rfl | h | h)
    · exact hv.unique hw
    · exact hv.eq_of_coincide hw h
    · exact (hw.eq_of_coincide hv h).symm

/-- Keys of different scalars, of which none is written as the other. -/
def Differs (a b : Tree) : Prop :=
  a.scalar ≠ b.scalar ∧ ¬Coincide a.scalar b.scalar ∧ ¬Coincide b.scalar a.scalar

theorem name_ne_iff {a b : Tree} {p q : String} (ha : a.key = .ok p) (hb : b.key = .ok q) :
    p ≠ q ↔ a.Differs b := by
  rw [ne_eq, name_eq_iff (named_of_key ha) (named_of_key hb), not_or, not_or]
  rfl

end LiveDoc.Yaml.Tree
