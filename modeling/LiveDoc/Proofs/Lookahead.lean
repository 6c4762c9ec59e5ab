import LiveDoc.Proofs.Readers

namespace LiveDoc.Script.Parser

variable {S S' : List Token → Prop} {x next : Reader α} {ts : List Token}

/-- The reader can take `more` and nothing else before any tokens that it may stop at. -/
def Completes (S : List Token → Prop) (x : Reader α) (more : List Token) : Prop :=
  ∃ a, ∀ k, S k → x (more ++ k) = .ok (a, k)

theorem completes_pure (a : α) : Completes S (pure a) [] :=
  ⟨a, fun _ _ => rfl⟩

namespace Completes

variable {more more' : List Token}

theorem congr (hx : ∀ k, x (more ++ k) = next (more ++ k)) (h : Completes S next more) :
    Completes S x more := by
  obtain ⟨a, h⟩ := h
  exact ⟨a, fun k hk => (hx k).trans (h k hk)⟩

theorem cons {t : Token} (hx : ∀ k, x (t :: k) = next k) (h : Completes S next more) :
    Completes S x (t :: more) := by
  obtain ⟨a, h⟩ := h
  exact ⟨a, fun k hk => (hx _).trans (h k hk)⟩

theorem bind {f : α → Reader β} (hx : Completes S' x more) (hf : ∀ a, Completes S (f a) more')
    (hS : ∀ k, S k → S' (more' ++ k)) : Completes S (x >>= f) (more ++ more') := by
  obtain ⟨a, hx⟩ := hx
  obtain ⟨b, hf⟩ := hf a
  refine ⟨b, fun k hk => ?_⟩
  rw [List.append_assoc, bind_ok (hx _ (hS k hk)), hf k hk]

theorem map (g : α → β) (hx : Completes S x more) : Completes S (do let a ← x; return g a) more := by
  have h := hx.bind (fun a => completes_pure (g a)) fun _ hk => hk
  rwa [List.append_nil] at h

end Completes

/-- The reader looks at one token more than it takes from `ts`. Behind what it finds, tokens of `S`
may stand as well; and where it fails, what it has taken can be completed before any of them. -/
structure Foresees (S : List Token → Prop) (x : Reader α) (ts : List Token) : Prop where
  found : ∀ {a rest}, x ts = .ok (a, rest) → ∃ used, ts = used ++ rest ∧
    ∀ rest', rest'.head? = rest.head? ∨ S rest' → x (used ++ rest') = .ok (a, rest')
  failed : ∀ {cause rest}, x ts = .error ⟨cause, rest⟩ → ∃ used, ts = used ++ rest ∧
    (∃ more, Completes S (fun k => x (used ++ k)) more) ∧
    (rest ≠ [] → ∀ rest', rest'.head? = rest.head? → x (used ++ rest') = .error ⟨cause, rest'⟩)

theorem head?_append_congr {used rest rest' : List Token} (h : used = [] → rest'.head? = rest.head?) :
    (used ++ rest').head? = (used ++ rest).head? := by
  cases used with
  | nil => exact h rfl
  | cons => rfl

namespace Foresees

theorem mono (hS : ∀ k, S k → S' k) (hx : Foresees S' x ts) : Foresees S x ts where
  found h := by
    obtain ⟨used, hts, hused⟩ := hx.found h
    exact ⟨used, hts, fun rest' hrest' => hused rest' (hrest'.imp_right (hS rest'))⟩
  failed h := by
    obtain ⟨used, hts, ⟨more, a, hmore⟩, hused⟩ := hx.failed h
    exact ⟨used, hts, ⟨more, a, fun k hk => hmore k (hS k hk)⟩, hused⟩

theorem stop {a : α} (hstop : ∀ k, S k → x k = .ok (a, k))
    (h : ∀ ts', ts'.head? = ts.head? → x ts' = .ok (a, ts')) : Foresees S x ts where
  found hx := by
    cases (h ts rfl).symm.trans hx
    exact ⟨[], rfl, fun ts' hts' => hts'.elim (h ts') (hstop ts')⟩
  failed hx := by cases (h ts rfl).symm.trans hx

theorem pure (a : α) : Foresees S (pure a) ts :=
  stop (fun _ _ => rfl) fun _ _ => rfl

section

variable {cause : Cause} {more : List Token}

theorem fail (hmore : Completes S x more)
    (h : ∀ ts', ts'.head? = ts.head? → x ts' = .error ⟨cause, ts'⟩) : Foresees S x ts where
  found hx := by cases (h ts rfl).symm.trans hx
  failed hx := by
    cases (h ts rfl).symm.trans hx
    exact ⟨[], rfl, ⟨more, hmore⟩, fun _ => h⟩

theorem fail_nil (hmore : Completes S x more) (h : x [] = .error ⟨cause, []⟩) : Foresees S x [] :=
  fail hmore fun ts' hts' => by rw [List.head?_eq_none_iff.1 hts', h]

theorem fail_cons {t : Token} (hmore : Completes S x more)
    (h : ∀ ts', x (t :: ts') = .error ⟨cause, t :: ts'⟩) : Foresees S x (t :: ts) :=
  fail hmore fun ts' hts' => by
    obtain ⟨ts'', rfl⟩ := List.head?_eq_some_iff.1 hts'
    exact h ts''

end

theorem cons {t : Token} (h : ∀ ts', x (t :: ts') = next ts') (hnext : Foresees S next ts) :
    Foresees S x (t :: ts) where
  found hx := by
    obtain ⟨used, rfl, hused⟩ := hnext.found ((h _).symm.trans hx)
    exact ⟨t :: used, rfl, fun rest' hrest' => (h _).trans (hused rest' hrest')⟩
  failed hx := by
    obtain ⟨used, rfl, ⟨more, a, hmore⟩, hused⟩ := hnext.failed ((h _).symm.trans hx)
    exact ⟨t :: used, rfl, ⟨more, a, fun k hk => (h _).trans (hmore k hk)⟩,
      fun hne rest' hrest' => (h _).trans (hused hne rest' hrest')⟩

theorem optional {t : Token} {a : α} (hS : ∀ k, S k → k.head? ≠ some t)
    (hnone : ∀ {ts'}, ts'.head? ≠ some t → x ts' = .ok (a, ts'))
    (htakes : ∀ ts', x (t :: ts') = next ts')
    (hnext : ∀ {rest}, rest.length < ts.length → Foresees S next rest) : Foresees S x ts := by
  by_cases h : ts.head? = some t
  · obtain ⟨rest, rfl⟩ := List.head?_eq_some_iff.1 h
    exact .cons htakes (hnext (Nat.lt_succ_self _))
  · exact .stop (fun k hk => hnone (hS k hk)) fun ts' hts' => hnone (hts' ▸ h)

theorem congr {more : List Token} (hmore : Completes S x more)
    (h : ∀ ts', ts'.head? = ts.head? → x ts' = next ts') (htakes : ∀ a, x ts ≠ .ok (a, ts))
    (hnext : Foresees S next ts) : Foresees S x ts where
  found {a rest} hx := by
    obtain ⟨used, hts, hused⟩ := hnext.found ((h ts rfl).symm.trans hx)
    have hne : used ≠ [] := by
      rintro rfl
      exact htakes a (by rw [hx, hts, List.nil_append])
    refine ⟨used, hts, fun rest' hrest' => ?_⟩
    have hhead : (used ++ rest').head? = ts.head? :=
      hts ▸ head?_append_congr fun hnil => absurd hnil hne
    rw [h _ hhead, hused rest' hrest']
  failed {cause rest} hx := by
    obtain ⟨used, hts, ⟨more', a, hmore'⟩, hused⟩ := hnext.failed ((h ts rfl).symm.trans hx)
    have hhead (k : List Token) (hk : used = [] → k.head? = rest.head?) :
        (used ++ k).head? = ts.head? := hts ▸ head?_append_congr hk
    refine ⟨used, hts, ?_, fun hne rest' hrest' => ?_⟩
    · by_cases hnil : used = []
      · exact ⟨more, by simpa [hnil] using hmore⟩
      · exact ⟨more', a, fun k hk =>
          (h _ (hhead _ fun h => absurd h hnil)).trans (hmore' k hk)⟩
    · rw [h _ (hhead _ fun _ => hrest'), hused hne rest' hrest']

/-- What was found does not change with what stands behind it, if only tokens beyond the next one do
or the reader may stop there. -/
theorem found_before (hx : Foresees S x ts) {a : α} {used' rest : List Token}
    (h : x ts = .ok (a, used' ++ rest)) : ∃ used, ts = used ++ (used' ++ rest) ∧
      ∀ rest', (used' = [] → rest'.head? = rest.head? ∨ S rest') →
        x (used ++ (used' ++ rest')) = .ok (a, used' ++ rest') := by
  obtain ⟨used, hts, hused⟩ := hx.found h
  refine ⟨used, hts, fun rest' hrest' => hused _ ?_⟩
  cases used' with
  | nil => exact hrest' rfl
  | cons => exact .inl rfl

section

variable {f : α → Reader β}

theorem bind_of_failed (hmore : ∀ a, ∃ more, Completes S (f a) more ∧ ∀ k, S k → S' (more ++ k))
    (hx : Foresees S' x ts) {failure : Failure} (hxts : x ts = .error failure) :
    Foresees S (x >>= f) ts where
  found h := by cases (bind_error hxts).symm.trans h
  failed h := by
    cases (bind_error hxts).symm.trans h
    obtain ⟨used, hts, ⟨more, a, ha⟩, hused⟩ := hx.failed hxts
    refine ⟨used, hts, ?_, fun hne rest' hrest' => bind_error (hused hne rest' hrest')⟩
    obtain ⟨more', ⟨b, hb⟩, hstop⟩ := hmore a
    refine ⟨more ++ more', b, fun k hk => ?_⟩
    rw [List.append_assoc]
    exact (bind_ok (ha _ (hstop k hk))).trans (hb k hk)

theorem bind_of_found (hS : ∀ k, S k → S' k)
    (hmore : ∀ a, ∃ more, Completes S (f a) more ∧ ∀ k, S k → S' (more ++ k))
    (hx : Foresees S' x ts) {a : α} {mid : List Token} (hxts : x ts = .ok (a, mid))
    (hf : Foresees S (f a) mid) : Foresees S (x >>= f) ts where
  found h := by
    obtain ⟨used', rfl, hused'⟩ := hf.found ((bind_ok hxts).symm.trans h)
    obtain ⟨used, hts, hused⟩ := hx.found_before hxts
    refine ⟨used ++ used', by rw [hts, List.append_assoc], fun rest' hrest' => ?_⟩
    have ha := hused rest' fun _ => hrest'.imp_right (hS rest')
    rw [List.append_assoc]
    exact (bind_ok ha).trans (hused' rest' hrest')
  failed h := by
    obtain ⟨used', rfl, ⟨more, b, hb⟩, hused'⟩ := hf.failed ((bind_ok hxts).symm.trans h)
    obtain ⟨used, hts, hused⟩ := hx.found_before hxts
    refine ⟨used ++ used', by rw [hts, List.append_assoc], ?_, fun hne rest' hrest' => ?_⟩
    -- If the second reader took nothing, what stands next decides what the first one finds, so only
    -- a completion that the first one may stop at will do.
    · by_cases hnil : used' = []
      · obtain ⟨more', ⟨b', hb'⟩, hstop⟩ := hmore a
        refine ⟨more', b', fun k hk => ?_⟩
        have ha := hused (more' ++ k) fun _ => .inr (hstop k hk)
        subst hnil
        rw [List.append_nil]
        exact (bind_ok ha).trans (hb' k hk)
      · refine ⟨more, b, fun k hk => ?_⟩
        have ha := hused (more ++ k) fun h => absurd h hnil
        show (x >>= f) (used ++ used' ++ (more ++ k)) = _
        rw [List.append_assoc used]
        exact (bind_ok ha).trans (hb k hk)
    · have ha := hused rest' fun _ => .inl hrest'
      rw [List.append_assoc]
      exact (bind_ok ha).trans (hused' hne rest' hrest')

/-- One reader after another. The second one can go on wherever it may stop, with tokens that the
first one may stop at. -/
theorem bind (hS : ∀ k, S k → S' k)
    (hmore : ∀ a, ∃ more, Completes S (f a) more ∧ ∀ k, S k → S' (more ++ k))
    (hx : Foresees S' x ts) (hf : ∀ {a rest}, x ts = .ok (a, rest) → Foresees S (f a) rest) :
    Foresees S (x >>= f) ts := by
  cases hxts : x ts with
  | error failure => exact bind_of_failed hmore hx hxts
  | ok found => exact bind_of_found hS hmore hx hxts (hf hxts)

theorem bind_nil (hS : ∀ k, S k → S' k) (hmore : ∀ a, Completes S (f a) []) (hx : Foresees S' x ts)
    (hf : ∀ {a rest}, x ts = .ok (a, rest) → Foresees S (f a) rest) : Foresees S (x >>= f) ts :=
  bind hS (fun a => ⟨[], hmore a, hS⟩) hx hf

end

theorem map (g : α → β) (hx : Foresees S x ts) :
    Foresees S (do let a ← x; return g a) ts :=
  bind_nil (fun _ hk => hk) (fun a => completes_pure (g a)) hx fun _ => pure _

end Foresees

section

variable {what : Expectation} {read? : Token → Option α} {t : Token} {a : α}

theorem completes_token (h : read? t = some a) : Completes S (token what read?) [t] :=
  ⟨a, fun _ _ => token_some h⟩

theorem foresees_token (h : read? t = some a) (ts : List Token) :
    Foresees S (token what read?) ts := by
  cases ts with
  | nil => exact .fail_nil (completes_token h) rfl
  | cons u ts =>
    cases hu : read? u with
    | some b => exact .cons (fun _ => token_some hu) (.pure b)
    | none => exact .fail_cons (completes_token h) fun _ => token_none hu

end

end LiveDoc.Script.Parser
